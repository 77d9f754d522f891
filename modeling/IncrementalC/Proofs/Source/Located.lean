import IncrementalC.Proofs.Source.CommittedText
import IncrementalC.Proofs.Token.Positions
import Mathlib.Data.List.Induction

/-!
# Positions lead back to their fragment

A token that the lexer reads from a fragment is found again in the source map by its span: the fragment
(`fragmentAt?`) and the line of the fragment's text (`lineText?`). The end mark stands where the next piece of text
in the buffer begins, and is found there once such a piece was added.
-/
namespace IncrementalC
set_option autoImplicit false

/-! ## Lines in UTF-8 -/

namespace Source

/-- The UTF-8 encoding. -/
def encoded (cs : List Char) : List UInt8 := cs.flatMap String.utf8EncodeChar

theorem encoded_append (cs ds : List Char) : encoded (cs ++ ds) = encoded cs ++ encoded ds :=
  List.flatMap_append

theorem toList_loop (b : ByteArray) (i : Nat) (read : List UInt8) :
    ByteArray.toList.loop b i read = read.reverse ++ b.data.toList.drop i := by
  fun_induction ByteArray.toList.loop b i read with
  | case1 i read inside ih =>
    have bound : i < b.data.toList.length := by simpa using inside
    have byte : b.get! i = b.data.toList[i] := by
      rw [Array.getElem_toList]
      exact getElem!_pos b.data i (by simpa using inside)
    rw [ih, List.drop_eq_getElem_cons bound, byte]
    simp
  | case2 i read outside =>
    have past : b.data.toList.length ≤ i := by simpa using outside
    rw [List.drop_eq_nil_of_le past, List.append_nil]

theorem toUTF8_toList (text : String) : text.toUTF8.toList = encoded text.toList := by
  have bytes : text.toUTF8 = (encoded text.toList).toByteArray := by
    calc text.toUTF8 = (String.ofList text.toList).toByteArray := by rw [String.ofList_toList]; rfl
      _ = (encoded text.toList).toByteArray := String.toByteArray_ofList
  rw [bytes, ByteArray.toList, toList_loop]
  simp

theorem length_encoded (cs : List Char) : (encoded cs).length = Lexer.byteSize cs := by
  induction cs with
  | nil => rfl
  | cons c cs ih =>
    have size := Lexer.byteSize_append [c] cs
    rw [Lexer.byteSize_singleton, List.singleton_append] at size
    rw [encoded, List.flatMap_cons, List.length_append, String.length_utf8EncodeChar, size, ← ih, encoded]

theorem fromUTF8?_encoded (cs : List Char) :
    String.fromUTF8? (encoded cs).toByteArray = some (String.ofList cs) := by
  have bytes : (encoded cs).toByteArray = (String.ofList cs).toByteArray := String.toByteArray_ofList.symm
  rw [bytes]
  exact dif_pos (String.ofList cs).isValidUTF8

/-- Only a newline has the byte of a newline in its encoding. -/
theorem newline_mem_utf8EncodeChar {c : Char} (h : 10 ∈ String.utf8EncodeChar c) : c = '\n' := by
  have byte {n : Nat} (h : 10 = UInt8.ofNat n) : n % 256 = 10 := by
    simpa using (congrArg UInt8.toNat h).symm
  unfold String.utf8EncodeChar at h
  by_cases single : c.val.toNat ≤ 127
  · rw [if_pos single] at h
    have code := byte (List.mem_singleton.mp h)
    refine Char.ext (UInt32.toNat_inj.mp ?_)
    show c.val.toNat = 10
    omega
  · -- the bytes of a longer encoding are 128 or more
    simp only [if_neg single] at h
    split at h
    · simp only [List.mem_cons, List.not_mem_nil, or_false] at h
      rcases h with h | h <;> have := byte h <;> omega
    split at h
    · simp only [List.mem_cons, List.not_mem_nil, or_false] at h
      rcases h with h | h | h <;> have := byte h <;> omega
    · simp only [List.mem_cons, List.not_mem_nil, or_false] at h
      rcases h with h | h | h | h <;> have := byte h <;> omega

theorem takeWhile_encodeChar {c : Char} (other : c ≠ '\n') (cs : List UInt8) :
    (String.utf8EncodeChar c ++ cs).takeWhile (· != 10) = String.utf8EncodeChar c ++ cs.takeWhile (· != 10) := by
  refine List.takeWhile_append_of_pos fun b mem => ?_
  rw [bne_iff_ne]
  rintro rfl
  exact other (newline_mem_utf8EncodeChar mem)

/-- What stands before the first newline. -/
def firstLine (cs : List Char) : List Char := cs.takeWhile (· != '\n')

/-- What stands behind the last newline. -/
def lastLine (cs : List Char) : List Char := (firstLine cs.reverse).reverse

theorem encoded_firstLine (cs : List Char) :
    (encoded cs).takeWhile (· != 10) = encoded (firstLine cs) := by
  induction cs with
  | nil => rfl
  | cons c cs ih =>
    rw [encoded, List.flatMap_cons, ← encoded]
    by_cases newline : c = '\n'
    · subst newline
      rfl
    · rw [takeWhile_encodeChar newline, ih]
      simp [firstLine, newline, encoded]

theorem encoded_lastLine (cs : List Char) :
    ((encoded cs).reverse.takeWhile (· != 10)).reverse = encoded (lastLine cs) := by
  induction cs using List.reverseRecOn with
  | nil => rfl
  | append_singleton cs c ih =>
    rw [encoded_append, List.reverse_append]
    by_cases newline : c = '\n'
    · subst newline
      simp [encoded, lastLine, firstLine, String.utf8EncodeChar]
    · have bytes : ∀ b ∈ (encoded [c]).reverse, (b != 10) = true := by
        intro b mem
        rw [bne_iff_ne]
        rintro rfl
        exact newline (newline_mem_utf8EncodeChar (by simpa [encoded] using mem))
      rw [List.takeWhile_append_of_pos bytes, List.reverse_append, ih, List.reverse_reverse, ← encoded_append]
      simp [lastLine, firstLine, newline]

/-! ## Lines of a text -/

/-- The line with number `n` of a text, counted from one, without its newline. -/
def line? (text : String) (n : Nat) : Option String :=
  (text.toList.splitOn '\n')[n - 1]?.map String.ofList

theorem length_splitOn (cs : List Char) : (cs.splitOn '\n').length = cs.count '\n' + 1 := by
  induction cs with
  | nil => rfl
  | cons c cs ih =>
    rw [List.splitOn_cons_eq_if_modifyHead, List.count_cons]
    split <;> simp [ih]

theorem head?_splitOn (cs : List Char) : (cs.splitOn '\n')[0]? = some (firstLine cs) := by
  induction cs with
  | nil => rfl
  | cons c cs ih =>
    rw [List.splitOn_cons_eq_if_modifyHead]
    by_cases newline : c = '\n'
    · simp [newline, firstLine]
    · simp [newline, firstLine, ih]

/-- The line in which `after` begins. -/
theorem line_of_split (before after : List Char) :
    ((before ++ after).splitOn '\n')[before.count '\n']? = some (lastLine before ++ firstLine after) := by
  induction before using List.reverseRecOn generalizing after with
  | nil => exact head?_splitOn after
  | append_singleton before c ih =>
    by_cases newline : c = '\n'
    · subst newline
      have count := length_splitOn before
      rw [List.append_assoc, List.singleton_append, List.splitOn_append_cons_self, List.count_append,
        List.getElem?_append_right (by simp [count])]
      simp [count, head?_splitOn, lastLine, firstLine]
    · have line := ih (c :: after)
      simpa [newline, lastLine, firstLine] using line

/-! ## Fragments -/

/-- Between the offsets of a text that can be read lies just that text. -/
theorem Buffer.Stores.stop_eq {b : Buffer} {all text : String} (h : b.Stores all) {start stop : Nat}
    (read : b.text? start stop = some text) : stop = start + text.utf8ByteSize := by
  rw [h.text?_eq] at read
  split at read
  · cases read
  · rename_i inside
    unfold String.fromUTF8? at read
    split at read
    · have bytes : (all.toByteArray.extract start stop).size = text.utf8ByteSize := by
        rw [← Option.some.inj read]
        rfl
      rw [ByteArray.size_extract, String.size_toByteArray] at bytes
      omega
    · cases read

end Source

namespace SourceMap
open Source Lexer

variable {m : SourceMap} {added : List (String × String)} {before after : List Fragment} {f : Fragment} {text : String}

/-- In its buffer, later text stands behind the fragment. -/
theorem Holds.behind (h : m.Holds added) (split : m.fragments.toList = before ++ f :: after) :
    ∀ g ∈ after, g.file = f.file → f.stop ≤ g.start := by
  intro g mem same
  have apart := h.apart f.file
  rw [filed, split, List.filter_append, List.filter_cons_of_pos (by simp)] at apart
  have later := (List.pairwise_append.mp apart).2.1
  exact List.rel_of_pairwise_cons later (List.mem_filter.mpr ⟨mem, by simpa using same⟩)

/-- The latest fragment that holds the start of a span is the one that later fragments stand behind. -/
theorem fragmentAt?_eq {span : Span} (split : m.fragments.toList = before ++ f :: after) (file : span.file = f.file)
    (inside : f.start ≤ span.start ∧ span.start ≤ f.stop)
    (later : ∀ g ∈ after, g.file = f.file → span.start < g.start) : m.fragmentAt? span = some f := by
  have others : after.reverse.find? (fun g => g.file == span.file && g.start ≤ span.start && span.start ≤ g.stop) = none := by
    refine List.find?_eq_none.mpr fun g mem found => ?_
    simp only [Bool.and_eq_true, beq_iff_eq, decide_eq_true_eq] at found
    have behind := later g (List.mem_reverse.mp mem) (found.1.1.trans file)
    omega
  unfold fragmentAt?
  rw [split, List.reverse_append, List.reverse_cons, List.find?_append, List.find?_append, others]
  simp [file, inside]

/-- The line that is read back is the line of the fragment's text in which the span starts. -/
theorem lineText?_eq {span : Span} {b : Buffer} (found : m.fragmentAt? span = some f) (buffer : m.buffer? f.file = some b)
    (read : b.text? f.start f.stop = some text) {cs ds : List Char} (split : text.toList = cs ++ ds)
    (start : span.start = f.start + byteSize cs) :
    m.lineText? span = some (String.ofList (lastLine cs ++ firstLine ds)) := by
  have bytes : text.toUTF8.toList = encoded cs ++ encoded ds := by
    rw [toUTF8_toList, split, encoded_append]
  have rel : min (span.start - f.start) (encoded cs ++ encoded ds).length = (encoded cs).length := by
    rw [start, List.length_append, length_encoded]
    omega
  simp only [lineText?, found, buffer, read, bind, Option.bind_some, bytes, rel]
  rw [List.take_left, List.drop_left, encoded_lastLine, encoded_firstLine, ← encoded_append, fromUTF8?_encoded]

/-- A token's span leads back to the fragment that the token was read from and to its line there, whatever was added
before and after. The end mark of a fragment stands where the next text in the buffer begins; it leads back as long as
there is none. -/
theorem tokens_located {history : List (String × String)} {ids : List Nat} (all : addAll {} history = .ok (m, ids))
    {id : Nat} {name : String} (known : history[id]? = some (name, text)) :
    ∃ f, m.fragment? id = some f ∧ f.name = name ∧
      ∀ tokens, tokenize text f.file f.start = .ok tokens → ∀ t ∈ tokens,
        (t.kind = .eof → ∀ g ∈ m.fragments.toList.drop (id + 1), g.file ≠ f.file) →
        m.fragmentAt? t.span = some f ∧ ∃ line, line? text t.span.line = some line ∧ m.lineText? t.span = some line := by
  obtain ⟨m', all', h, -⟩ := holds_empty.addAll history
  obtain rfl : m = m' := congrArg Prod.fst (Except.ok.inj (all.symm.trans all'))
  have read := h.reads known
  obtain ⟨f, fragment, read⟩ := Option.bind_eq_some_iff.mp read
  obtain ⟨b, buffer, read⟩ := Option.bind_eq_some_iff.mp read
  refine ⟨f, fragment, ?_, fun tokens lexed t mem joint => ?_⟩
  · have names := congrArg (·[id]?) h.names
    have here : m.fragments[id]? = some f := fragment
    simpa [here, known] using names
  have stop := (h.stores buffer).stop_eq read
  have split : m.fragments.toList = m.fragments.toList.take id ++ f :: m.fragments.toList.drop (id + 1) := by
    obtain ⟨inside, same⟩ := Array.getElem?_eq_some_iff.mp fragment
    have bound : id < m.fragments.toList.length := by simpa using inside
    rw [← same, ← Array.getElem_toList bound, ← List.drop_eq_getElem_cons bound, List.take_append_drop]
  obtain ⟨cs, inside, ds, whole, span, -, empty⟩ := tokenize_covers lexed t mem
  have size : text.utf8ByteSize = byteSize cs + byteSize inside + byteSize ds := by
    rw [← byteSize_append, ← byteSize_append, ← whole, byteSize, String.ofList_toList]
  have start : t.span.start = f.start + byteSize cs := by rw [span]; rfl
  have found : m.fragmentAt? t.span = some f := by
    refine fragmentAt?_eq split (by rw [span]; rfl) (by omega) fun g later same => ?_
    have behind := h.behind split g later same
    by_cases full : inside = []
    · exact absurd same (joint (empty full) g later)
    · have room := byteSize_pos full
      omega
  refine ⟨found, _, ?_, lineText?_eq found buffer read (whole.trans (List.append_assoc ..)) start⟩
  have line : t.span.line = cs.count '\n' + 1 := by rw [span]; rfl
  rw [line?, line, whole, List.append_assoc, Nat.add_sub_cancel, line_of_split]
  rfl

theorem tokens_located_between : ∃ m ids f tokens t,
    addAll {} [("a", "int a;"), ("b", "\n b"), ("c", "c")] = .ok (m, ids) ∧ m.fragment? 1 = some f ∧
      tokenize "\n b" f.file f.start = .ok tokens ∧ t ∈ tokens ∧ t.kind = .ident "b" ∧
      m.fragmentAt? t.span = some f ∧ m.lineText? t.span = some " b" := by
  have place : (addAll {} [("a", "int a;"), ("b", "\n b"), ("c", "c")]).toOption.map (·.1.fragment? 1) =
      some (some ⟨"b", 0, 6, 9⟩) := by decide +kernel
  have first : (tokenize "\n b" 0 6).toOption.bind (·[0]?) = some ⟨.ident "b", ⟨0, 8, 9, 2, 2⟩⟩ := by decide +kernel
  cases all : addAll {} [("a", "int a;"), ("b", "\n b"), ("c", "c")] with
  | error e =>
    rw [all] at place
    cases place
  | ok r =>
    rw [all] at place
    have second : [("a", "int a;"), ("b", "\n b"), ("c", "c")][1]? = some ("b", "\n b") := rfl
    obtain ⟨f, fragment, -, located⟩ := tokens_located all second
    obtain rfl : f = ⟨"b", 0, 6, 9⟩ := Option.some.inj (fragment.symm.trans (Option.some.inj place))
    obtain ⟨tokens, lexed, first⟩ := Option.bind_eq_some_iff.mp first
    have read : tokenize "\n b" 0 6 = .ok tokens := by
      cases lexed' : tokenize "\n b" 0 6 with
      | error e =>
        rw [lexed'] at lexed
        cases lexed
      | ok tokens' =>
        rw [lexed'] at lexed
        exact congrArg Except.ok (Option.some.inj lexed)
    have mem : (⟨.ident "b", ⟨0, 8, 9, 2, 2⟩⟩ : Token) ∈ tokens := Array.mem_of_getElem? first
    obtain ⟨found, line, text, shown⟩ := located tokens read _ mem (fun eof => TokenKind.noConfusion eof)
    have text' : line? "\n b" 2 = some " b" := by decide +kernel
    exact ⟨r.1, r.2, _, tokens, _, rfl, fragment, read, mem, rfl, found, shown.trans (text.symm.trans text')⟩

/-- Once more text stands in the buffer, the end of the text before it is taken for the start of that text. -/
theorem end_mark_lost_behind_more_text :
    (addAll {} [("a", "int a;"), ("b", "int b;")]).toOption.map (fun r =>
      ((tokenize "int a;" 0 0).toOption.bind (·.back?)).map fun t =>
        (t.kind, r.1.fragment? 0, r.1.fragmentAt? t.span, r.1.lineText? t.span)) =
      some (some (.eof, some ⟨"a", 0, 0, 6⟩, some ⟨"b", 0, 6, 12⟩, some "int b;")) := by
  decide +kernel

end SourceMap

end IncrementalC
