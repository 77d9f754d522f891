import IncrementalC.Text.ClusterClass

/-!
# Clusters of characters

`clusters` cuts a text into extended grapheme clusters. Whether a text may be cut in front of a
character depends on the class of the character before it and on the `Joint` that stands open there.

* `flatten_clusters`: the clusters of a text are the text.
-/
namespace IncrementalC.Text
set_option autoImplicit false

/-! ## Where clusters end -/

/-- What has begun and may go on behind signs that extend it. -/
inductive Joint where
  | none
  /-- The first half of a flag. -/
  | flag
  | pictograph
  /-- A pictograph and a joiner. -/
  | joinedPictograph
  | consonant
  /-- A consonant with a linker. -/
  | linkedConsonant
deriving DecidableEq, Repr

/-- What stands open behind a character of a class. -/
def Joint.next : Joint → ClusterClass → Joint
  | .flag, .regional => .none
  | _, .regional => .flag
  | _, .pictograph => .pictograph
  | _, .consonant => .consonant
  | .pictograph, .joiner => .joinedPictograph
  | .pictograph, .extending | .pictograph, .linker | .pictograph, .nonJoiner => .pictograph
  | .consonant, .linker => .linkedConsonant
  | .consonant, .extending | .consonant, .joiner => .consonant
  | .linkedConsonant, .linker | .linkedConsonant, .extending | .linkedConsonant, .joiner =>
    .linkedConsonant
  | _, _ => .none

namespace ClusterClass

/-- Nothing but the end of a line continues here. -/
def isControl : ClusterClass → Bool
  | .carriageReturn | .lineFeed | .control => true
  | _ => false

/-- Continues any cluster. -/
def isExtension : ClusterClass → Bool
  | .extending | .linker | .nonJoiner | .joiner | .spacing => true
  | _ => false

/-- Two parts of one Hangul syllable. -/
def joinsSyllable : ClusterClass → ClusterClass → Bool
  | .leadingJamo, c => [leadingJamo, vowelJamo, openSyllable, closedSyllable].contains c
  | .openSyllable, c | .vowelJamo, c => [vowelJamo, trailingJamo].contains c
  | .closedSyllable, c | .trailingJamo, c => c = trailingJamo
  | _, _ => false

end ClusterClass

/-- A joint takes a character of a class in. -/
def Joint.joins : Joint → ClusterClass → Bool
  | .flag, .regional | .joinedPictograph, .pictograph | .linkedConsonant, .consonant => true
  | _, _ => false

/-- Two neighbours belong to one cluster. -/
def sameCluster (last : ClusterClass) (joint : Joint) (c : ClusterClass) : Bool :=
  if last = .carriageReturn ∧ c = .lineFeed then true
  else if last.isControl || c.isControl then false
  else c.isExtension || last = .prepended || last.joinsSyllable c || joint.joins c

/-! ## Cutting a text -/

/-- A text that is cut as far as it was read. -/
structure CutText where
  /-- The finished clusters, last first. -/
  finished : List (List Char) := []
  /-- The cluster that may go on, last character first. -/
  current : List Char := []
  last : ClusterClass := .other
  joint : Joint := .none

namespace CutText

/-- All clusters, last first. -/
def all (t : CutText) : List (List Char) :=
  if t.current.isEmpty then t.finished else t.current.reverse :: t.finished

def add (t : CutText) (c : Char) : CutText :=
  let k := clusterClass c
  let joint := t.joint.next k
  if sameCluster t.last t.joint k then { t with current := c :: t.current, last := k, joint }
  else { finished := t.all, current := [c], last := k, joint }

def text (t : CutText) : List Char := t.all.reverse.flatten

theorem text_add (t : CutText) (c : Char) : (t.add c).text = t.text ++ [c] := by
  unfold add
  dsimp only
  split
  · cases h : t.current with
    | nil => simp [text, all, h]
    | cons d ds => simp [text, all, h]
  · simp [text, all]

theorem text_foldl (cs : List Char) (t : CutText) : (cs.foldl add t).text = t.text ++ cs := by
  induction cs generalizing t with
  | nil => simp
  | cons c cs ih => simp [ih, text_add]

end CutText

/-- The clusters of a text. -/
def clusters (cs : List Char) : List (List Char) :=
  let t : CutText := cs.foldl CutText.add {}
  t.all.reverse

theorem flatten_clusters (cs : List Char) : (clusters cs).flatten = cs := by
  have h := CutText.text_foldl cs {}
  simpa [CutText.text, CutText.all, clusters] using h

end IncrementalC.Text
