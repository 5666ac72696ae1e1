import HashTree.Mapping.Normal
import Mathlib.Data.List.Basic

/-!
# Segments of a key

A key is cut at its dots, and no segment has a dot in it. Cutting and joining undo each other.
-/

namespace HashTree

namespace Mapping

/-- A key that is a single segment has **no dot** in it. -/
def IsSegment (key : String) : Prop := '.' ∉ key.toList

instance (key : String) : Decidable (IsSegment key) := inferInstanceAs (Decidable (¬ _))

/-- A path as one key, with dots between its segments. -/
def joinDots (path : Path) : String := ".".intercalate path

/-- Characters are split as lists are. -/
theorem splitDots_eq (chars segment : List Char) (done : Path) :
    splitDots chars segment done
      = done.reverse ++ (List.splitOnPPrepend (· == '.') chars segment).map String.ofList := by
  induction chars generalizing segment done with
  | nil => simp [splitDots, List.splitOnPPrepend_nil]
  | cons c chars ih =>
    rw [splitDots]
    by_cases hdot : c = '.'
    · rw [if_pos hdot, ih, List.splitOnPPrepend_cons_pos (by simpa using hdot)]
      simp
    · rw [if_neg hdot, ih, List.splitOnPPrepend_cons_neg (by simpa using hdot)]

theorem segments_eq (key : String) :
    segments key = (key.toList.splitOn '.').map String.ofList := by
  rw [segments, splitDots_eq, List.splitOnPPrepend_nil_right]
  rfl

/-- A key has a segment. -/
theorem segments_ne_nil (key : String) : segments key ≠ [] := by
  rw [segments_eq, ne_eq, List.map_eq_nil_iff]
  exact List.splitOn_ne_nil '.' _

/-- What a list is split at is not in the parts. -/
private theorem notMem_of_mem_splitOn {c : Char} {chars part : List Char}
    (h : part ∈ chars.splitOn c) : c ∉ part := by
  induction chars generalizing part with
  | nil =>
    rw [List.splitOn_nil, List.mem_singleton] at h
    simp [h]
  | cons c' chars ih =>
    rw [List.splitOn_cons_eq_if_modifyHead] at h
    by_cases hsame : c' = c
    · rw [if_pos (by simpa using hsame), List.mem_cons] at h
      rcases h with rfl | h
      · simp
      · exact ih h
    · rw [if_neg (by simpa using hsame)] at h
      -- the first part grows by a character, which is another one
      match hparts : chars.splitOn c with
      | [] => exact absurd hparts (List.splitOn_ne_nil c chars)
      | first :: rest =>
        rw [hparts, List.modifyHead_cons, List.mem_cons] at h
        rcases h with rfl | h
        · have hfirst : c ∉ first := ih (hparts ▸ List.mem_cons_self)
          simp [hfirst, Ne.symm hsame]
        · exact ih (hparts ▸ List.mem_cons_of_mem _ h)

theorem isSegment_of_mem {key segment : String} (h : segment ∈ segments key) :
    IsSegment segment := by
  rw [segments_eq] at h
  obtain ⟨part, hpart, rfl⟩ := List.mem_map.mp h
  rw [IsSegment, String.toList_ofList]
  exact notMem_of_mem_splitOn hpart

/-- Segments that are joined are found **again**. -/
theorem segments_joinDots {path : Path} (hne : path ≠ []) (h : ∀ key ∈ path, IsSegment key) :
    segments (joinDots path) = path := by
  have hparts : ∀ part ∈ path.map String.toList, '.' ∉ part := by
    intro part hpart
    obtain ⟨key, hkey, rfl⟩ := List.mem_map.mp hpart
    exact h key hkey
  have hdot : ".".toList = ['.'] := rfl
  rw [segments_eq, joinDots, String.toList_intercalate, hdot,
    List.splitOn_intercalate '.' hparts (by simpa using hne), List.map_map]
  simp [Function.comp_def]

/-- A key is its segments **joined** again. -/
theorem joinDots_segments (key : String) : joinDots (segments key) = key := by
  have hdot : ".".toList = ['.'] := rfl
  rw [← String.toList_inj, joinDots, String.toList_intercalate, segments_eq, List.map_map, hdot]
  simp [Function.comp_def, List.intercalate_splitOn]

/-- A key **leads through** another one when that and a dot stand at its front. -/
def LeadsThrough (key through : String) : Prop := (through ++ ".").toList <+: key.toList

instance (key through : String) : Decidable (LeadsThrough key through) :=
  inferInstanceAs (Decidable (_ <+: _))

/-- Segments at the front are those of the key itself or of one that it leads through. -/
theorem eq_or_leadsThrough {key through : String} (h : segments through <+: segments key) :
    key = through ∨ LeadsThrough key through := by
  obtain ⟨rest, hrest⟩ := h
  by_cases hnil : rest = []
  · left
    rw [← joinDots_segments key, ← hrest, hnil, List.append_nil, joinDots_segments]
  · right
    have hkey : key = through ++ "." ++ joinDots rest := by
      have hjoin : joinDots (segments through ++ rest)
          = joinDots (segments through) ++ "." ++ joinDots rest :=
        String.intercalate_append_of_ne_nil (segments_ne_nil through) hnil
      rw [← joinDots_segments key, ← hrest, hjoin, joinDots_segments]
    rw [LeadsThrough, hkey]
    simp only [String.toList_append]
    exact List.prefix_append _ _

end Mapping

end HashTree
