import HashTree.Proofs.Mapping.Alike

/-!
# Rearranged mappings

A mapping is rearranged by putting its entries, or those of the mappings in it, into another order.
Every key stays with its value, so rearranged mappings are alike, but more of their trees is the
same than the roots.
-/

namespace HashTree

namespace Mapping

/-- Two mappings are **rearranged** when one comes from the other by reordering entries, at any
level. -/
inductive Rearranged : Mapping → Mapping → Prop where
  | order {entries entries' : Mapping} (perm : entries.Perm entries') :
    Rearranged entries entries'
  | inner {key : String} {below below' rest : Mapping} (h : Rearranged below below') :
    Rearranged ((key, .map below) :: rest) ((key, .map below') :: rest)
  | trans {entries middle entries' : Mapping} (h : Rearranged entries middle)
    (h' : Rearranged middle entries') : Rearranged entries entries'

namespace Rearranged

variable {entries entries' : Mapping}

@[refl]
theorem refl (entries : Mapping) : Rearranged entries entries := .order (.refl _)

theorem symm (h : Rearranged entries entries') : Rearranged entries' entries := by
  induction h with
  | order perm => exact .order perm.symm
  | inner _ ih => exact .inner ih
  | trans _ _ ih ih' => exact .trans ih' ih

/-- An entry may be put in front. -/
theorem cons (e : String × Value) (h : Rearranged entries entries') :
    Rearranged (e :: entries) (e :: entries') := by
  induction h with
  | order perm => exact .order (perm.cons e)
  | @inner key below below' rest h _ =>
    have hfront : Rearranged (e :: (key, .map below) :: rest) ((key, .map below) :: e :: rest) :=
      .order (.swap _ _ _)
    have hback : Rearranged ((key, .map below') :: e :: rest) (e :: (key, .map below') :: rest) :=
      .order (.swap _ _ _)
    exact hfront.trans (h.inner.trans hback)
  | trans _ _ ih ih' => exact ih.trans ih'

/-- Rearranged mappings are **alike**. -/
theorem alike (h : Rearranged entries entries') : Value.Alike (.map entries) (.map entries') := by
  induction h with
  | order perm => exact .order perm
  | inner _ ih => exact .inner ih
  | trans _ _ ih ih' => exact ih.trans ih'

end Rearranged

/-- Two values are rearranged when they are equal or rearranged mappings. -/
inductive RearrangedValue : Value → Value → Prop where
  | same (value : Value) : RearrangedValue value value
  | map {below below' : Mapping} (h : Rearranged below below') :
    RearrangedValue (.map below) (.map below')

/-- The first value may be rearranged. -/
theorem RearrangedValue.cons {value value' : Value} (h : RearrangedValue value value')
    (key : String) (rest : Mapping) : Rearranged ((key, value) :: rest) ((key, value') :: rest) := by
  cases h with
  | same _ => exact .refl _
  | map h => exact h.inner

/-- All values may be rearranged. -/
theorem Rearranged.of_forall₂ {entries entries' : Mapping}
    (h : List.Forall₂ (fun e f => e.1 = f.1 ∧ RearrangedValue e.2 f.2) entries entries') :
    Rearranged entries entries' := by
  induction h with
  | nil => exact .refl []
  | @cons e f rest rest' hef _ ih =>
    obtain ⟨hkey, hvalue⟩ := hef
    have hfirst : Rearranged (e :: rest) (f :: rest) := by
      obtain ⟨key, value⟩ := e
      obtain rfl : key = f.1 := hkey
      exact hvalue.cons f.1 rest
    exact hfirst.trans (ih.cons f)

end Mapping

end HashTree
