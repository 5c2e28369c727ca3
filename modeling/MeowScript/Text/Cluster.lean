import MeowScript.Text.ClusterClass

/-!
# What a reader sees as one character

A text is cut into extended grapheme clusters: a letter with its marks, a syllable, a flag, a
picture made of several. Whether a character joins the cluster before it depends on that cluster
and on nothing else.

Results:
* `clusters_flatten`: cutting loses no character.
* `ne_nil_of_mem_clusters`: no cluster is empty.
* `clusters_of_control`: a control character is a cluster of its own.
-/
namespace MeowScript.Text

namespace ClusterClass

/-- Whether the classes `before`, the last first, end in a consonant and the marks that bind it to
another one. -/
def endsInLink (before : List ClusterClass) : Bool :=
  (before.takeWhile inConjunct).contains linker &&
    (before.dropWhile inConjunct).head? == some consonant

/-- Whether they end in a pictograph and a joiner. -/
def endsInJoin : List ClusterClass → Bool
  | joiner :: before => (before.dropWhile dressesPictograph).head? == some pictograph
  | _ => false

/-- Whether they end in half a flag. -/
def endsInHalfFlag (before : List ClusterClass) : Bool :=
  (before.takeWhile (· == regional)).length % 2 == 1

/-- Whether a character of class `k` joins the cluster of classes `before`, the last first. -/
def joins (before : List ClusterClass) (k : ClusterClass) : Bool :=
  match before with
  | [] => false
  | b :: _ =>
    if b.standsAlone || k.standsAlone then b == carriageReturn && k == lineFeed
    else
      k.follows || b == preceding || b.syllableGoesOn k ||
        k == consonant && endsInLink before ||
        k == pictograph && endsInJoin before ||
        k == regional && endsInHalfFlag before

theorem joins_control (before : List ClusterClass) : joins before control = false := by
  cases before <;> simp [joins, standsAlone]

theorem joins_of_control (before : List ClusterClass) (k : ClusterClass) :
    joins (control :: before) k = false := by
  simp [joins, standsAlone]

end ClusterClass

/-- Goes on with the cluster `cluster` of classes `classes`, both the last first. -/
def cut (cluster : List Char) (classes : List ClusterClass) : List Char → List (List Char)
  | [] => [cluster.reverse]
  | c :: cs =>
    let k := ClusterClass.of c
    if ClusterClass.joins classes k then cut (c :: cluster) (k :: classes) cs
    else cluster.reverse :: cut [c] [k] cs

/-- The clusters of a text, in order. -/
def clusters : List Char → List (List Char)
  | [] => []
  | c :: cs => cut [c] [.of c] cs

theorem cut_flatten (cluster : List Char) (classes : List ClusterClass) (cs : List Char) :
    (cut cluster classes cs).flatten = cluster.reverse ++ cs := by
  induction cs generalizing cluster classes with
  | nil => simp [cut]
  | cons c cs ih =>
    rw [cut]
    split
    · simp [ih]
    · simp [ih]

theorem clusters_flatten (cs : List Char) : (clusters cs).flatten = cs := by
  cases cs with
  | nil => rfl
  | cons c cs => rw [clusters, cut_flatten]; rfl

theorem ne_nil_of_mem_cut {cluster x : List Char} {classes : List ClusterClass} {cs : List Char}
    (hc : cluster ≠ []) (h : x ∈ cut cluster classes cs) : x ≠ [] := by
  induction cs generalizing cluster classes with
  | nil => rw [cut, List.mem_singleton] at h; simpa [h] using hc
  | cons c cs ih =>
    rw [cut] at h
    split at h
    · exact ih (List.cons_ne_nil _ _) h
    · rcases List.mem_cons.1 h with rfl | h
      · simpa using hc
      · exact ih (List.cons_ne_nil _ _) h

theorem ne_nil_of_mem_clusters {x cs : List Char} (h : x ∈ clusters cs) : x ≠ [] := by
  cases cs with
  | nil => cases h
  | cons c cs => exact ne_nil_of_mem_cut (List.cons_ne_nil _ _) h

/-- Nothing joins a control character, and it joins nothing. -/
theorem cut_of_control {c : Char} (hc : ClusterClass.of c = .control) (cluster : List Char)
    (classes : List ClusterClass) (cs : List Char) :
    cut cluster classes (c :: cs) = cluster.reverse :: [c] :: clusters cs := by
  rw [cut, hc, ClusterClass.joins_control]
  cases cs with
  | nil => rfl
  | cons d cs => simp [cut, ClusterClass.joins_of_control, clusters]

theorem clusters_of_control {c : Char} (hc : ClusterClass.of c = .control) (cs : List Char) :
    clusters (c :: cs) = [c] :: clusters cs := by
  cases cs with
  | nil => rfl
  | cons d cs => simp [cut, hc, ClusterClass.joins_of_control, clusters]

end MeowScript.Text
