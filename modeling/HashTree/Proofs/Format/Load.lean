import HashTree.Format.Load
import HashTree.Proofs.Outcome

/-!
# Finding the algorithm of a document

Whatever name a document carries and whatever is requested, what is loaded is what some algorithm
makes of it. Where the name is that of an algorithm that succeeds, the result is that algorithm's.
-/

namespace HashTree

open Outcome

section Resolve

variable {α : Type} {place : Section} {named : String} {requested : Option Algorithm}
  {attempt : Algorithm → Except FormatError α} {v : α} {a : Algorithm}

theorem exists_of_firstSuccess {algorithms : List Algorithm}
    (h : firstSuccess attempt algorithms = some v) : ∃ a, attempt a = .ok v := by
  obtain ⟨a, -, ha⟩ := List.exists_of_findSome?_eq_some h
  refine ⟨a, ?_⟩
  cases hattempt : attempt a with
  | error e => simp [hattempt, Except.toOption] at ha
  | ok w => simpa [hattempt, Except.toOption] using ha

/-- What is resolved is what **some algorithm** makes of the document. -/
theorem exists_of_resolve (h : resolve place named requested attempt = .ok v) :
    ∃ a, attempt a = .ok v := by
  unfold resolve at h
  split at h
  · -- an algorithm is requested
    split at h
    · exact ⟨_, h⟩
    · cases h
  · -- the name says nothing
    split at h
    · next w hw =>
      obtain rfl := Except.ok.inj h
      exact exists_of_firstSuccess hw
    · cases h
  · -- the name is a hint
    split at h
    · next w hw => exact ⟨_, hw.trans h⟩
    · split at h
      · next w hw =>
        obtain rfl := Except.ok.inj h
        exact exists_of_firstSuccess hw
      · cases h

/-- The algorithm that the document names is tried first. -/
theorem resolve_named (hname : Algorithm.ofName? named = some a) (hattempt : attempt a = .ok v)
    (hrequested : requested = none ∨ requested = some a) :
    resolve place named requested attempt = .ok v := by
  rcases hrequested with rfl | rfl
  · simp only [resolve, hname, hattempt]
  · simp only [resolve, hname, if_true, hattempt]

end Resolve

/-- A tree is loaded from bytes by reading a document **with the width of some algorithm** and
restoring it under the same one. -/
theorem Tree.exists_read_of_load {bytes : Bytes} {requested : Option Algorithm} {t : Tree}
    (h : load bytes .binary requested = .ok t) :
    ∃ a d, (Binary.readTree a.digestSize).run bytes = .ok d ∧ d.restore a = .ok t := by
  obtain ⟨named, -, h⟩ := bind_eq_ok_iff.mp h
  obtain ⟨a, ha⟩ := exists_of_resolve h
  obtain ⟨d, hread, hd⟩ := bind_eq_ok_iff.mp ha
  exact ⟨a, d, hread, hd⟩

/-- A loaded tree is restored from a document under some algorithm. -/
theorem Tree.exists_restore_of_load {bytes : Bytes} {encoding : Encoding}
    {requested : Option Algorithm} {t : Tree} (h : load bytes encoding requested = .ok t) :
    ∃ a d, TreeDocument.restore a d = .ok t := by
  cases encoding with
  | json =>
    obtain ⟨d, -, h⟩ := bind_eq_ok_iff.mp h
    obtain ⟨-, h⟩ := check_bind_eq_ok_iff.mp h
    obtain ⟨a, ha⟩ := exists_of_resolve h
    exact ⟨a, d, ha⟩
  | binary =>
    obtain ⟨a, d, -, hd⟩ := exists_read_of_load h
    exact ⟨a, d, hd⟩

/-- An opening is loaded from bytes by reading a document **with the width of some algorithm** and
restoring it under the same one. -/
theorem Opening.exists_read_of_load {bytes : Bytes} {requested : Option Algorithm} {o : Opening}
    (h : load bytes .binary requested = .ok o) :
    ∃ a d, (Binary.readOpening a.digestSize).run bytes = .ok d ∧ d.restore a = .ok o := by
  obtain ⟨named, -, h⟩ := bind_eq_ok_iff.mp h
  obtain ⟨a, ha⟩ := exists_of_resolve h
  obtain ⟨d, hread, hd⟩ := bind_eq_ok_iff.mp ha
  exact ⟨a, d, hread, hd⟩

/-- A loaded opening is restored from a document under some algorithm. -/
theorem Opening.exists_restore_of_load {bytes : Bytes} {encoding : Encoding}
    {requested : Option Algorithm} {o : Opening} (h : load bytes encoding requested = .ok o) :
    ∃ a d, OpeningDocument.restore a d = .ok o := by
  cases encoding with
  | json =>
    obtain ⟨d, -, h⟩ := bind_eq_ok_iff.mp h
    obtain ⟨-, h⟩ := check_bind_eq_ok_iff.mp h
    obtain ⟨a, ha⟩ := exists_of_resolve h
    exact ⟨a, d, ha⟩
  | binary =>
    obtain ⟨a, d, -, hd⟩ := exists_read_of_load h
    exact ⟨a, d, hd⟩

end HashTree
