import IncrementalC.Proofs.Machine.Modular
import IncrementalC.Proofs.Machine.Places

/-!
# Arithmetic on pointers

A pointer is moved by a number of elements with `ptrAdd`, and `ptrDiff` gives the number of elements between two pointers.
The distance of two addresses in slots needs no more than 64 bits (`distance_in_range`).

`Exec.acts` is the effect of some instructions. Those that move a pointer have the effect of pushing the moved one
(`Exec.acts_ptrAdd`), whatever was pushed. Inside of a region the slot of the moved pointer is the exact one
(`Address.index_moved`), so going there and asking for the difference gives the number back
(`Exec.pointer_arithmetic_exact`).
-/
namespace IncrementalC
set_option autoImplicit false

/-! ## Distances -/

/-- The distance in slots of two words as addresses, without a bound. -/
def distance (p q : UInt64) : Int := (Address.decode p).index.toInt64.toInt - (Address.decode q).index.toInt64.toInt

/-- The word is an address, or a number that is not negative. -/
def IsPlace (p : UInt64) : Prop := (Address.decode p).region ≠ .raw ∨ 0 ≤ p.toInt64.toInt

theorem IsPlace.index {p : UInt64} (h : IsPlace p) : 0 ≤ (Address.decode p).index.toInt64.toInt := by
  have masked : 0 ≤ (p &&& Address.indexMask).toInt64.toInt := by
    have reach : Address.reach = 2 ^ 56 := rfl
    have below := Nat.mod_lt p.toNat (show 0 < Address.reach by decide)
    have small : (p &&& Address.indexMask).toBitVec.toNat < 2 ^ 56 := by
      have value : (p &&& Address.indexMask).toBitVec.toNat = p.toNat % Address.reach := Address.masked_toNat p
      omega
    show 0 ≤ (p &&& Address.indexMask).toBitVec.toInt
    rw [BitVec.toInt_eq_toNat_of_lt (by omega)]
    omega
  unfold IsPlace at h
  unfold Address.decode at *
  by_cases global : p >>> 56 = 1
  · rw [if_pos global]
    exact masked
  · rw [if_neg global] at h ⊢
    by_cases stack : p >>> 56 = 2
    · rw [if_pos stack]
      exact masked
    · rw [if_neg stack] at h ⊢
      exact h.resolve_left fun other => other rfl

theorem distance_in_range {p q : UInt64} (hp : IsPlace p) (hq : IsPlace q) : -2 ^ 63 < distance p q ∧ distance p q < 2 ^ 63 := by
  have first := hp.index
  have second := hq.index
  have below := Int64.toInt_lt (Address.decode p).index.toInt64
  have below' := Int64.toInt_lt (Address.decode q).index.toInt64
  unfold distance
  omega

/-- The difference of two pointers is their distance in units of the stride. -/
theorem act_ptrDiff {η : Type} (evaluate : List Value → Exec η Value) (ret : Option Scalar) (base : Nat) (stride : Int64)
    {w : World η} {p q : Value} {rest : List Value} (operands : w.machine.operands = q :: p :: rest) (hp : IsPlace p.bits)
    (hq : IsPlace q.bits) : ∃ n : Int64, n.toInt = (distance p.bits q.bits).tdiv (max stride.toInt 1) ∧
      Exec.act evaluate ret base (.ptrDiff stride) w =
        .ok () { w with machine := { w.machine with operands := .int n :: rest } } := by
  obtain ⟨least, most⟩ := distance_in_range hp hq
  have difference : ((Address.decode p.bits).index.toInt64 - (Address.decode q.bits).index.toInt64).toInt =
      distance p.bits q.bits := by
    unfold distance at least most ⊢
    rw [Int64.toInt_sub]
    exact Int.bmod_eq_of_le (by omega) (by omega)
  have unit : (if stride < 1 then 1 else stride : Int64).toInt = max stride.toInt 1 := by
    split
    · rename_i less
      have less : stride.toInt < 1 := Int64.lt_iff_toInt_lt.mp less
      rw [Int.max_eq_right (by omega)]
      rfl
    · rename_i more
      have more : ¬stride.toInt < 1 := fun less => more (Int64.lt_iff_toInt_lt.mpr less)
      exact (Int.max_eq_left (by omega)).symm
  refine ⟨((Address.decode p.bits).index.toInt64 - (Address.decode q.bits).index.toInt64) /
    (if stride < 1 then 1 else stride), ?_, ?_⟩
  · rw [Int64.toInt_div, difference, unit]
    have bound := Int.natAbs_tdiv_le_natAbs (distance p.bits q.bits) (max stride.toInt 1)
    exact Int.bmod_eq_of_le (by omega) (by omega)
  · show (Exec.pop >>= fun b => Exec.pop >>= fun a => Exec.push _) w = _
    rw [Exec.run_ok (Exec.pop_cons operands)]
    rfl

/-! ## Moved addresses -/

namespace Address

variable {a b : Address} {d : Int64} {n : Int}

theorem decode_encode_small (backed : a.region ≠ .raw) (small : a.index.toNat < reach) : decode a.encode = a := by
  have index : a.index &&& indexMask = a.index := by
    have masked := masked_ofNat small
    rwa [UInt64.ofNat_toNat] at masked
  rw [decode_encode backed, index]

theorem isPlace_encode (backed : a.region ≠ .raw) : IsPlace a.encode := by
  refine .inl ?_
  rw [decode_encode backed]
  exact backed

/-- Only the low bits of a distance count, so it may have wrapped around. -/
theorem index_moved (wrapped : d.toInt ≡ n [ZMOD 2 ^ 64]) (low : 0 ≤ a.index.toNat + n) (high : a.index.toNat + n < reach) :
    (a.offset d).index.toNat = a.index.toNat + n := by
  have index : (a.offset d).index.toNat = (a.index.toNat + d.toUInt64.toNat) % reach := by
    have divides : reach ∣ 2 ^ 64 := ⟨2 ^ 8, rfl⟩
    unfold offset
    rw [masked_toNat, UInt64.toNat_add, Nat.mod_mod_of_dvd _ divides]
  have word : d.toUInt64.toNat ≡ n [ZMOD reach] := ((toNat_modEq_toInt d).trans wrapped).of_dvd (by decide)
  rw [index, Int.natCast_emod, Int.natCast_add, ← Int.emod_eq_of_lt low high]
  exact word.add_left _

/-- The distance of two addresses in slots is that of their slots. -/
theorem distance_encode (backed : a.region ≠ .raw) (small : a.index.toNat < reach) (backed' : b.region ≠ .raw)
    (small' : b.index.toNat < reach) : distance a.encode b.encode = a.index.toNat - b.index.toNat := by
  have positive {i : UInt64} (small : i.toNat < reach) : i.toInt64.toInt = i.toNat :=
    Scalar.toInt_toInt64 (Nat.lt_trans small (by decide))
  unfold distance
  rw [decode_encode_small backed small, decode_encode_small backed' small', positive small, positive small']

end Address

/-! ## Instructions -/

namespace Operation

/-- A pointer in memory is moved by slots, whether or not its type is known. -/
theorem increment_pointer {k : Scalar} {v : Value} {p : UInt64} (pointer : v.coerce k = .ptr p) (amount : Int64) :
    increment k (.ptr p) amount = .ptr ((Address.decode p).offset amount).encode := by
  cases k with
  | ptr | dyn => rfl
  | bool | f32 | f64 => cases pointer
  | _ => cases v <;> cases pointer

end Operation

theorem Machine.isMapped_of_read {m : Machine} {p : UInt64} {v : Value} (found : m.read p = .ok v) : m.isMapped p := by
  unfold read at found
  unfold isMapped
  cases slot : m.read? p with
  | some _ => rfl
  | none =>
    rw [slot] at found
    cases found

namespace Exec

variable {η : Type}

theorem load_known {w : World η} {p : UInt64} {v : Value} (found : w.machine.read p = .ok v) : load p w = .ok v w := by
  unfold load
  rw [run_machine, found]
  rfl

theorem store_mapped {w : World η} {p : UInt64} (mapped : w.machine.isMapped p) (v : Value) :
    store p v w = .ok () { w with machine := w.machine.put p v } := by
  unfold store
  rw [run_machine, if_pos mapped]
  rfl

variable (evaluate : List Value → Exec η Value) (ret : Option Scalar) (base : Nat)

/-- Runs instructions of a function whose frame begins at slot `base`, one after the other and without counting them. -/
def acts : List Instr → Exec η Unit
  | [] => return
  | i :: is => do
    act evaluate ret base i
    acts is

theorem acts_ptrAdd (p : UInt64) (s k : Int64) (is : List Instr) :
    acts evaluate ret base (.pushPtr p :: .pushInt k :: .ptrAdd s :: is) =
      acts evaluate ret base (.pushPtr ((Address.decode p).offset (k * s)).encode :: is) := rfl

theorem acts_ptrAdd_ptrAdd (p : UInt64) (s m n : Int64) (is : List Instr) :
    acts evaluate ret base (.pushPtr p :: .pushInt m :: .ptrAdd s :: .pushInt n :: .ptrAdd s :: is) =
      acts evaluate ret base (.pushPtr p :: .pushInt (m + n) :: .ptrAdd s :: is) := by
  rw [acts_ptrAdd, acts_ptrAdd, acts_ptrAdd, Address.offset_decode, Address.offset_offset, Int64.add_mul]

theorem acts_ptrDiff {p q : UInt64} (hp : IsPlace p) (hq : IsPlace q) {s k : Int64}
    (number : k.toInt = (distance p q).tdiv (max s.toInt 1)) (is : List Instr) :
    acts evaluate ret base (.pushPtr p :: .pushPtr q :: .ptrDiff s :: is) = acts evaluate ret base (.pushInt k :: is) := by
  funext w
  let pushed : World η := { w with machine := { w.machine with operands := .ptr q :: .ptr p :: w.machine.operands } }
  obtain ⟨n, value, run⟩ := act_ptrDiff evaluate ret base s (w := pushed) rfl hp hq
  obtain rfl : n = k := Int64.toInt_inj.mp (value.trans number.symm)
  show (act evaluate ret base (.ptrDiff s) >>= fun _ => acts evaluate ret base is) pushed = _
  rw [run_ok run]
  rfl

theorem acts_incDec {k : Scalar} {w : World η} {p q : UInt64} {v : Value} (found : w.machine.read p = .ok v)
    (pointer : v.coerce k = .ptr q) (mapped : w.machine.isMapped p) (amount : Int64) (post : Bool) (is : List Instr) :
    let moved := ((Address.decode q).offset amount).encode
    acts evaluate ret base (.pushPtr p :: .incDec k amount post :: is) w =
      acts evaluate ret base (.pushPtr (if post then q else moved) :: is)
        { w with machine := w.machine.put p (.ptr moved) } := by
  intro moved
  let pushed : World η := { w with machine := { w.machine with operands := .ptr p :: w.machine.operands } }
  have run : act evaluate ret base (.incDec k amount post) pushed =
      push (.ptr (if post then q else moved)) { w with machine := w.machine.put p (.ptr moved) } := by
    show (load p >>= fun v => do
      let new := Operation.increment k (v.coerce k) amount
      store p new
      push (if post then v.coerce k else new)) w = _
    rw [run_ok (load_known found), pointer, Operation.increment_pointer pointer, run_ok (store_mapped mapped _)]
    cases post <;> rfl
  show (act evaluate ret base (.incDec k amount post) >>= fun _ => acts evaluate ret base is) pushed = _
  rw [run_ok run]
  rfl

/-- Arithmetic on pointers is exact inside of a region, and it depends on the number of slots only wherever the pointer
goes. -/
structure PointersExact : Prop where
  packed : ∀ a : Address, a.region ≠ .raw → a.index.toNat < Address.reach → Address.decode a.encode = a
  /-- There is the slot that one expects, and the difference to it is the number of elements. -/
  moved : ∀ (a : Address) (s k : Int64), a.region ≠ .raw → a.index.toNat < Address.reach → 1 ≤ s.toInt →
    0 ≤ a.index.toNat + k.toInt * s.toInt → a.index.toNat + k.toInt * s.toInt < Address.reach →
    ∃ q : UInt64, (Address.decode q).region = a.region ∧
      (Address.decode q).index.toNat = a.index.toNat + k.toInt * s.toInt ∧
      acts evaluate ret base [.pushPtr a.encode, .pushInt k, .ptrAdd s] = acts evaluate ret base [.pushPtr q] ∧
      acts evaluate ret base [.pushPtr q, .pushPtr a.encode, .ptrDiff s] = acts evaluate ret base [.pushInt k]
  added : ∀ (p : UInt64) (s m n : Int64),
    acts evaluate ret base [.pushPtr p, .pushInt m, .ptrAdd s, .pushInt n, .ptrAdd s] =
      acts evaluate ret base [.pushPtr p, .pushInt (m + n), .ptrAdd s]
  /-- What is read as a pointer is replaced by the moved one. -/
  stepped : ∀ (w : World η) (p q : UInt64) (v : Value) (k : Scalar) (amount : Int64) (post : Bool),
    w.machine.read p = .ok v → v.coerce k = .ptr q → ∃ (r : UInt64) (m : Machine),
      acts evaluate ret base [.pushPtr q, .pushInt amount, .ptrAdd 1] = acts evaluate ret base [.pushPtr r] ∧
      w.machine.write p (.ptr r) = .ok m ∧
      acts evaluate ret base [.pushPtr p, .incDec k amount post] w =
        acts evaluate ret base [.pushPtr (if post then q else r)] { w with machine := m }

/-- Pointers into a region move by whole elements, and a difference counts these. A pointer that is moved twice, or in
memory, goes where it goes in one step. -/
theorem pointer_arithmetic_exact : PointersExact evaluate ret base := by
  refine ⟨fun a => Address.decode_encode_small, fun a s k backed small positive low high => ?_, fun p s m n => ?_,
    fun w p q v k amount post found pointer => ?_⟩
  · have backed' : (a.offset (k * s)).region ≠ .raw := backed
    have index : (a.offset (k * s)).index.toNat = a.index.toNat + k.toInt * s.toInt :=
      -- the product may leave 64 bits, but only by multiples of the reach of a region
      Address.index_moved (Operation.mul_modEq k s) low high
    have inside : (a.offset (k * s)).index.toNat < Address.reach := by omega
    have number : k.toInt = (distance (a.offset (k * s)).encode a.encode).tdiv (max s.toInt 1) := by
      rw [Address.distance_encode backed' inside backed small, index, add_sub_cancel_left, Int.max_eq_left positive,
        Int.mul_tdiv_cancel _ (by omega)]
    refine ⟨(a.offset (k * s)).encode, ?_, ?_, ?_, ?_⟩
    · rw [Address.decode_offset]
      rfl
    · rw [Address.decode_offset, index]
    · rw [acts_ptrAdd, Address.offset_decode]
    · exact acts_ptrDiff evaluate ret base (Address.isPlace_encode backed') (Address.isPlace_encode backed) number []
  · exact acts_ptrAdd_ptrAdd evaluate ret base p s m n []
  · have mapped : w.machine.isMapped p := Machine.isMapped_of_read found
    refine ⟨((Address.decode q).offset amount).encode, w.machine.put p _, ?_, if_pos mapped, ?_⟩
    · rw [acts_ptrAdd, Int64.mul_one]
    · exact acts_incDec evaluate ret base found pointer mapped amount post []

/-- Two pairs back from slot five there is slot one, and one slot back in memory there is slot four. -/
theorem pointer_goes_back :
    let run := acts (fun _ => fail .noHost : List Value → Exec Unit Value) none 0
    let five := (Address.global 5).encode
    let w : World Unit := ⟨{ globals := #[.int 7, .ptr five] }, ()⟩
    Address.decode five = Address.global 5 ∧
    (∃ q, (Address.decode q).region = .global ∧ (Address.decode q).index.toNat = 1 ∧
      run [.pushPtr five, .pushInt (-2), .ptrAdd 2] = run [.pushPtr q] ∧
      run [.pushPtr q, .pushPtr five, .ptrDiff 2] = run [.pushInt (-2)]) ∧
    w.machine.read (Address.global 1).encode = .ok (.ptr five) ∧
    ∃ r m, run [.pushPtr five, .pushInt (-1), .ptrAdd 1] = run [.pushPtr r] ∧
      w.machine.write (Address.global 1).encode (.ptr r) = .ok m ∧
      run [.pushPtr (Address.global 1).encode, .incDec .dyn (-1) true] w = run [.pushPtr five] { w with machine := m } := by
  intro run five w
  have holds := pointer_arithmetic_exact (fun _ => fail .noHost : List Value → Exec Unit Value) none 0
  have found : w.machine.read (Address.global 1).encode = .ok (.ptr five) := rfl
  refine ⟨holds.packed _ nofun (by decide), ?_, found, holds.stepped w _ five _ .dyn (-1) true found rfl⟩
  obtain ⟨q, region, index, there, back⟩ :=
    holds.moved (Address.global 5) 2 (-2) nofun (by decide) (by decide) (by decide) (by decide)
  exact ⟨q, region, Int.ofNat_inj.mp index, there, back⟩

end Exec

end IncrementalC
