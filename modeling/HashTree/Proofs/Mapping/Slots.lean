import HashTree.Proofs.Mapping.Nested
import HashTree.Proofs.Mapping.Places

/-!
# The nested reading, level by level

The nested normal form is said here by a rule for one level: the keys of a mapping are kept as they
come first, and each holds the normal form of its first value. It can also be made without going
back out of a mapping: entries wait in one list, whichever mapping they belong to, and what has been
kept lies in numbered slots, where a mapping names the slots of its values. In the end the slots list
the normal form from the top down, and no slot is named twice.
-/

namespace HashTree

namespace Mapping

/-! ## §1 First entries by rules -/

/-- A value with nothing but the **first entries** of every level. -/
inductive FirstsOnly : Value → Value → Prop where
  /-- A byte string is taken as it is. -/
  | bytes (b : Bytes) : FirstsOnly (.bytes b) (.bytes b)
  /-- A mapping keeps its keys, as they are written and **in the order in which they come first**.
  Each holds what its first value comes to, be it an empty mapping. -/
  | map {entries kept : Mapping} (keys_eq : keys kept = (keys entries).eraseDups)
    (values : ∀ key value value', entries.lookup key = some value → (key, value') ∈ kept →
      FirstsOnly value value') : FirstsOnly (.map entries) (.map kept)

section Firsts

variable {α β : Type}

/-- What is dropped may be dropped before or after repetitions are. -/
private theorem eraseDups_filter (p : String → Bool) (names : List String) :
    (names.filter p).eraseDups = names.eraseDups.filter p := by
  induction names using List.reverseRecOn with
  | nil => rfl
  | append_singleton names name ih =>
    rw [List.filter_append, List.eraseDups_append, List.eraseDups_append, List.filter_append, ih]
    by_cases hp : p name = true <;> by_cases hmem : name ∈ names <;>
      simp [hp, hmem, List.removeAll, List.eraseDups_cons]

/-- First entries have the keys **as they come first**. -/
theorem map_fst_firsts (entries : List (String × α)) :
    (firsts entries).map (·.1) = (entries.map (·.1)).eraseDups := by
  induction entries with
  | nil => rfl
  | cons e entries ih =>
    have hfilter : ((fun name => decide (name ≠ e.1)) ∘ fun f : String × α => f.1)
        = fun f => decide (f.1 ≠ e.1) := rfl
    have hsame : (fun name : String => !(name == e.1)) = fun name => decide (name ≠ e.1) := by
      funext name
      by_cases hname : name = e.1 <;> simp [hname]
    rw [firsts, List.map_cons, List.map_cons, List.eraseDups_cons, hsame, eraseDups_filter, ← ih,
      List.filter_map, hfilter]

/-- The first entry of a key is what is **looked up** under it. -/
theorem lookup_of_mem_firsts {entries : List (String × α)} {key : String} {value : α}
    (h : (key, value) ∈ firsts entries) : entries.lookup key = some value := by
  induction entries with
  | nil => cases h
  | cons e entries ih =>
    obtain ⟨first, v⟩ := e
    rw [firsts, List.mem_cons] at h
    rcases h with heq | h
    · obtain ⟨rfl, rfl⟩ := Prod.mk.inj heq
      exact List.lookup_cons_self
    · obtain ⟨h, hne⟩ := List.mem_filter.mp h
      have hne : key ≠ first := of_decide_eq_true hne
      rw [List.lookup_cons, show (key == first) = false by simpa using hne]
      exact ih h

/-- Values that are replaced are looked up as such. -/
theorem lookup_map (f : α → β) (entries : List (String × α)) (key : String) :
    (entries.map fun e => (e.1, f e.2)).lookup key = (entries.lookup key).map f := by
  induction entries with
  | nil => rfl
  | cons e entries ih =>
    rw [List.map_cons, List.lookup_cons, List.lookup_cons, ih]
    split <;> rfl

end Firsts

/-- The rule says **what is computed**. -/
theorem firstsOnly_nestedValue (value : Value) : FirstsOnly value (nestedValue value) := by
  induction value using Value.induction with
  | bytes b =>
    rw [nestedValue_bytes]
    exact .bytes b
  | map entries ih =>
    rw [nestedValue_map]
    apply FirstsOnly.map
    · rw [keys, nested_eq, map_fst_firsts, List.map_map]
      rfl
    · intro key value value' hlookup hmem
      rw [nested_eq] at hmem
      have hfirst := lookup_of_mem_firsts hmem
      rw [lookup_map, hlookup] at hfirst
      obtain rfl := Option.some.inj hfirst
      obtain ⟨before, after, rfl, -⟩ := List.lookup_eq_some_iff.mp hlookup
      exact ih (key, value) (List.mem_append_right _ List.mem_cons_self)

/-- The rule leaves **one value**. -/
theorem FirstsOnly.unique {value normal other : Value} (h : FirstsOnly value normal)
    (h' : FirstsOnly value other) : normal = other := by
  induction h generalizing other with
  | bytes b =>
    cases h'
    rfl
  | @map entries kept keys_eq _ ih =>
    cases h' with
    | @map _ kept' keys_eq' values' =>
      have hkeys : keys kept = keys kept' := keys_eq.trans keys_eq'.symm
      have hlength : kept.length = kept'.length := by
        simpa [keys] using congrArg List.length hkeys
      refine congrArg _ (List.ext_getElem hlength fun k hk hk' => ?_)
      have hkey : kept[k].1 = kept'[k].1 := by
        simpa [keys] using List.getElem_of_eq hkeys (by simpa [keys] using hk)
      -- entries of one place have the same key, and so the same first value
      have hmem : kept[k].1 ∈ keys entries := by
        rw [← List.mem_eraseDups, ← keys_eq]
        exact List.mem_map_of_mem (List.getElem_mem hk)
      obtain ⟨e, he, hkeye⟩ := List.mem_map.mp hmem
      have hsome := List.lookup_isSome_iff.mpr ⟨e, he, beq_iff_eq.mpr hkeye.symm⟩
      obtain ⟨value, hlookup⟩ := Option.isSome_iff_exists.mp hsome
      have hvalue := values' _ _ kept'[k].2 hlookup (by rw [hkey]; exact List.getElem_mem hk')
      exact Prod.ext hkey (ih _ _ _ hlookup (List.getElem_mem hk) hvalue)

/-! ## §2 Slots -/

/-- What lies in a slot: a byte string, or a mapping that names **the slots of its values**. -/
inductive Record where
  | bytes (b : Bytes)
  | map (entries : List (String × Nat))

/-- The slots that a record names. -/
def Record.targets : Record → List Nat
  | bytes _ => []
  | map entries => entries.map (·.2)

/-- A mapping with one more entry at its end. -/
def Record.add (key : String) (slot : Nat) : Record → Record
  | bytes b => bytes b
  | map entries => map (entries ++ [(key, slot)])

/-- The slot that the mapping in a slot names for a key. -/
def slotOf? (records : List Record) (slot : Nat) (key : String) : Option Nat :=
  match records[slot]? with
  | some (.map entries) => entries.lookup key
  | _ => none

/-- Puts a record into a new slot, and enters it under a key of the mapping in a slot. -/
def attach (records : List Record) (slot : Nat) (key : String) (record : Record) : List Record :=
  (records ++ [record]).modify slot (Record.add key records.length)

/-- An entry that waits to be kept in the mapping in a slot. -/
structure Waiting where
  slot : Nat
  key : String
  value : Value

/-- The entries of a mapping, waiting to be kept in a slot. -/
def waitingAt (slot : Nat) (entries : Mapping) : List Waiting :=
  entries.map fun e => ⟨slot, e.1, e.2⟩

theorem weights_append (entries more : Mapping) :
    Value.weights (entries ++ more) = Value.weights entries + Value.weights more := by
  induction entries with
  | nil => simp [Value.weights]
  | cons e entries ih => simp only [List.cons_append, Value.weights, ih]; omega

/-- Keeps the entries that wait, one after the other. An entry whose key is there already is
dropped with everything in it; a mapping is kept without entries, and these wait **in front of all
others**. -/
def store (records : List Record) (waiting : List Waiting) : List Record :=
  match waiting with
  | [] => records
  | ⟨slot, key, value⟩ :: waiting =>
    if (slotOf? records slot key).isSome then store records waiting
    else
      match value with
      | .bytes b => store (attach records slot key (.bytes b)) waiting
      | .map entries =>
        store (attach records slot key (.map [])) (waitingAt records.length entries ++ waiting)
termination_by Value.weights (waiting.map fun w => (w.key, w.value))
decreasing_by
  · simp only [List.map_cons, Value.weights]; omega
  · simp only [List.map_cons, Value.weights, Value.weight]; omega
  · simp only [waitingAt, List.map_append, List.map_map, Function.comp_def, List.map_id',
      weights_append, List.map_cons, Value.weights, Value.weight]
    omega

section Equations

variable {records : List Record} {slot : Nat} {key : String}

theorem store_nil (records : List Record) : store records [] = records := by
  rw [store]

theorem store_drop (value : Value) (waiting : List Waiting)
    (there : (slotOf? records slot key).isSome) :
    store records (⟨slot, key, value⟩ :: waiting) = store records waiting := by
  rw [store.eq_def]
  exact if_pos there

theorem store_bytes (b : Bytes) (waiting : List Waiting) (new : slotOf? records slot key = none) :
    store records (⟨slot, key, .bytes b⟩ :: waiting)
      = store (attach records slot key (.bytes b)) waiting := by
  rw [store.eq_def]
  exact if_neg (by simp [new])

theorem store_map (entries : Mapping) (waiting : List Waiting)
    (new : slotOf? records slot key = none) :
    store records (⟨slot, key, .map entries⟩ :: waiting)
      = store (attach records slot key (.map []))
        (waitingAt records.length entries ++ waiting) := by
  rw [store.eq_def]
  exact if_neg (by simp [new])

end Equations

/-- Entries that wait behind others are kept after them. -/
theorem store_append (records : List Record) (waiting more : List Waiting) :
    store records (waiting ++ more) = store (store records waiting) more := by
  fun_induction store records waiting with
  | case1 => rfl
  | case2 records slot key value waiting there ih =>
    rw [List.cons_append, store_drop _ _ there, ih]
  | case3 records slot key waiting new b ih =>
    rw [List.cons_append, store_bytes _ _ (by simpa using new), ih]
  | case4 records slot key waiting new entries ih =>
    rw [List.cons_append, store_map _ _ (by simpa using new), ← ih, List.append_assoc]

/-- The slots of a mapping: its entries are kept one by one in slot zero. -/
def slots (mapping : Mapping) : List Record :=
  mapping.foldl (fun records e => store records [⟨0, e.1, e.2⟩]) [.map []]

/-! ## §3 Slots from the top down -/

mutual

/-- The records of a value of which the first lies in a given slot: a mapping, and behind it the
records of its values. -/
def listing (slot : Nat) : Value → List Record
  | .bytes b => [.bytes b]
  | .map entries => .map (slotsFrom (slot + 1) entries) :: listings (slot + 1) entries

/-- The records of some values, one value after the other. -/
def listings (slot : Nat) : List (String × Value) → List Record
  | [] => []
  | (_, value) :: entries =>
    listing slot value ++ listings (slot + (listing slot value).length) entries

/-- The keys of some values with the slots of their first records. -/
def slotsFrom (slot : Nat) : List (String × Value) → List (String × Nat)
  | [] => []
  | (key, value) :: entries =>
    (key, slot) :: slotsFrom (slot + (listing slot value).length) entries

end

theorem map_fst_slotsFrom (slot : Nat) (entries : Mapping) :
    (slotsFrom slot entries).map (·.1) = keys entries := by
  induction entries generalizing slot with
  | nil => rw [slotsFrom]; rfl
  | cons e entries ih =>
    rw [slotsFrom, List.map_cons, ih]
    rfl

/-- What is kept of a mapping **beside some keys**: the first entries of all others, in normal
form. -/
def keptBeside (names : List String) (entries : Mapping) : Mapping :=
  (firsts (entries.map fun e => (e.1, nestedValue e.2))).filter fun f => f.1 ∉ names

theorem keptBeside_nil (entries : Mapping) : keptBeside [] entries = nested entries := by
  simp [keptBeside, nested_eq]

theorem keptBeside_cons_of_mem {e : String × Value} {names : List String} (h : e.1 ∈ names)
    (entries : Mapping) : keptBeside names (e :: entries) = keptBeside names entries := by
  have h' : (e.1, nestedValue e.2).1 ∈ names := h
  rw [keptBeside, List.map_cons, filter_firsts_cons_of_mem h', keptBeside]

theorem keptBeside_cons_of_notMem {e : String × Value} {names : List String} (h : e.1 ∉ names)
    (entries : Mapping) : keptBeside names (e :: entries)
      = (e.1, nestedValue e.2) :: keptBeside (names ++ [e.1]) entries := by
  have hnames : ∀ name, name ∈ names ++ [e.1] ↔ name = e.1 ∨ name ∈ names := by
    intro name
    rw [List.mem_append, List.mem_singleton, or_comm]
  have h' : (e.1, nestedValue e.2).1 ∉ names := h
  rw [keptBeside, List.map_cons, filter_firsts_cons_of_notMem h' hnames, keptBeside]

section Store

variable (before after : List Record) (refs : List (String × Nat)) {key : String}

private theorem slotOf?_eq :
    slotOf? (before ++ .map refs :: after) before.length key = refs.lookup key := by
  simp [slotOf?]

private theorem slotOf?_eq_none (h : key ∉ refs.map (·.1)) :
    slotOf? (before ++ .map refs :: after) before.length key = none := by
  rw [slotOf?_eq, List.lookup_eq_none_iff]
  intro ref href
  have hne : key ≠ ref.1 := fun heq => h (heq ▸ List.mem_map_of_mem href)
  simpa using hne

private theorem attach_eq (record : Record) :
    attach (before ++ .map refs :: after) before.length key record
      = before ++ .map (refs ++ [(key, before.length + (after.length + 1))])
        :: (after ++ [record]) := by
  rw [attach, List.append_assoc, List.length_append]
  show List.modifyTailIdx _ (before.length + 0) _ = _
  rw [List.modifyTailIdx_add]
  rfl

/-- Under a new key a value is kept as the listing of its normal form, **behind all records**. -/
private def StoredWhole (value : Value) : Prop :=
  ∀ (before after : List Record) (refs : List (String × Nat)) (key : String)
    (waiting : List Waiting), key ∉ refs.map (·.1) →
    store (before ++ .map refs :: after) (⟨before.length, key, value⟩ :: waiting)
      = store (before ++ .map (refs ++ [(key, before.length + (after.length + 1))])
          :: (after ++ listing (before.length + (after.length + 1)) (nestedValue value))) waiting

/-- The entries that wait for one mapping are kept in it, as far as their keys are new. -/
private theorem store_waitingAt {entries : Mapping} (h : ∀ e ∈ entries, StoredWhole e.2)
    (waiting : List Waiting) :
    store (before ++ .map refs :: after) (waitingAt before.length entries ++ waiting)
      = store (before
          ++ .map (refs ++ slotsFrom (before.length + (after.length + 1))
            (keptBeside (refs.map (·.1)) entries))
          :: (after ++ listings (before.length + (after.length + 1))
            (keptBeside (refs.map (·.1)) entries))) waiting := by
  induction entries generalizing refs after with
  | nil => simp [waitingAt, keptBeside, firsts, slotsFrom, listings]
  | cons e entries ih =>
    obtain ⟨hvalue, hentries⟩ := List.forall_mem_cons.mp h
    rw [waitingAt, List.map_cons, List.cons_append, ← waitingAt]
    by_cases hkey : e.1 ∈ refs.map (·.1)
    · -- the entry is dropped, with all that is in it
      obtain ⟨ref, href, heq⟩ := List.mem_map.mp hkey
      have hthere : (slotOf? (before ++ .map refs :: after) before.length e.1).isSome = true := by
        rw [slotOf?_eq, List.lookup_isSome_iff]
        exact ⟨ref, href, beq_iff_eq.mpr heq.symm⟩
      rw [store_drop _ _ hthere, ih after refs hentries, keptBeside_cons_of_mem hkey]
    · -- the value is kept behind all records, and the others behind it
      have hslot : before.length + ((after ++ listing (before.length + (after.length + 1))
            (nestedValue e.2)).length + 1)
          = before.length + (after.length + 1)
            + (listing (before.length + (after.length + 1)) (nestedValue e.2)).length := by
        rw [List.length_append]
        omega
      rw [hvalue before after refs e.1 _ hkey, ih _ _ hentries, keptBeside_cons_of_notMem hkey,
        slotsFrom, listings, hslot, List.map_append, List.append_assoc, List.append_assoc]
      rfl

/-- Whatever a value is, it is kept **whole and on its own**. -/
private theorem storedWhole (value : Value) : StoredWhole value := by
  induction value using Value.induction with
  | bytes b =>
    intro before after refs key waiting hkey
    rw [store_bytes _ _ (slotOf?_eq_none before after refs hkey), attach_eq, nestedValue_bytes,
      listing]
  | map entries ih =>
    intro before after refs key waiting hkey
    -- the entries fill the new slot, in front of all others that wait
    have hfill := store_waitingAt
      (before ++ .map (refs ++ [(key, before.length + (after.length + 1))]) :: after) [] [] ih
      waiting
    have hlength : (before ++ Record.map refs :: after).length
        = (before ++ .map (refs ++ [(key, before.length + (after.length + 1))])
          :: after).length := by
      simp
    rw [store_map _ _ (slotOf?_eq_none before after refs hkey), attach_eq, hlength,
      ← List.cons_append, ← List.append_assoc, hfill, nestedValue_map, listing, List.map_nil,
      keptBeside_nil]
    simp

end Store

/-- In the end the slots **list the normal form** from the top down. -/
theorem slots_eq_listing (mapping : Mapping) :
    slots mapping = listing 0 (.map (nested mapping)) := by
  have hfold : ∀ records : List Record,
      mapping.foldl (fun records e => store records [⟨0, e.1, e.2⟩]) records
        = store records (waitingAt 0 mapping) := by
    induction mapping with
    | nil => exact fun records => (store_nil records).symm
    | cons e entries ih =>
      intro records
      rw [List.foldl_cons, ih, ← store_append]
      rfl
  have hfill := store_waitingAt [] [] [] (fun e (_ : e ∈ mapping) => storedWhole e.2) []
  rw [List.map_nil, keptBeside_nil, List.append_nil, store_nil] at hfill
  rw [slots, hfold, listing]
  exact hfill

/-! ## §4 Reading slots back -/

/-- A value **lies in** a slot. -/
inductive Holding (records : List Record) : Nat → Value → Prop where
  | bytes {slot : Nat} {b : Bytes} (here : records[slot]? = some (.bytes b)) :
    Holding records slot (.bytes b)
  | map {slot : Nat} {refs : List (String × Nat)} {entries : Mapping}
    (here : records[slot]? = some (.map refs)) (keys_eq : refs.map (·.1) = keys entries)
    (values : ∀ (k : Nat) (ref : String × Nat) (e : String × Value), refs[k]? = some ref →
      entries[k]? = some e → Holding records ref.2 e.2) : Holding records slot (.map entries)

/-- In a slot lies **one value**. -/
theorem Holding.unique {records : List Record} {slot : Nat} {value other : Value}
    (h : Holding records slot value) (h' : Holding records slot other) : value = other := by
  induction h generalizing other with
  | bytes here =>
    cases h' with
    | bytes here' => rw [Record.bytes.inj (Option.some.inj (here.symm.trans here'))]
    | map here' => cases here.symm.trans here'
  | @map slot refs entries here keys_eq _ ih =>
    cases h' with
    | bytes here' => cases here.symm.trans here'
    | @map _ refs' entries' here' keys_eq' values' =>
      obtain rfl := Record.map.inj (Option.some.inj (here.symm.trans here'))
      have hkeys : keys entries = keys entries' := keys_eq.symm.trans keys_eq'
      have hlength : entries.length = entries'.length := by
        simpa [keys] using congrArg List.length hkeys
      have hrefs : refs.length = entries.length := by
        simpa [keys] using congrArg List.length keys_eq
      refine congrArg _ (List.ext_getElem hlength fun k hk hk' => Prod.ext ?_ ?_)
      · simpa [keys] using List.getElem_of_eq hkeys (by simpa [keys] using hk)
      · have href := List.getElem?_eq_getElem (hrefs ▸ hk : k < refs.length)
        exact ih k _ _ href (List.getElem?_eq_getElem hk)
          (values' k _ _ href (List.getElem?_eq_getElem hk'))

/-- Listed values lie in the slots that are named for them. -/
private theorem holding_listings {entries : Mapping}
    (h : ∀ e ∈ entries, ∀ before after : List Record,
      Holding (before ++ listing before.length e.2 ++ after) before.length e.2)
    (before after : List Record) {k : Nat} {ref : String × Nat} {e : String × Value}
    (href : (slotsFrom before.length entries)[k]? = some ref) (he : entries[k]? = some e) :
    Holding (before ++ listings before.length entries ++ after) ref.2 e.2 := by
  induction entries generalizing before k with
  | nil => cases he
  | cons first entries ih =>
    obtain ⟨hfirst, hentries⟩ := List.forall_mem_cons.mp h
    rw [slotsFrom] at href
    rw [listings]
    cases k with
    | zero =>
      obtain rfl := Option.some.inj href
      obtain rfl := Option.some.inj he
      simpa using hfirst before (listings _ entries ++ after)
    | succ k =>
      rw [← List.length_append] at href ⊢
      simpa using ih hentries (before ++ listing before.length first.2) href he

/-- A value lies in the first slot of **its listing**. -/
theorem holding_listing (value : Value) (before after : List Record) :
    Holding (before ++ listing before.length value ++ after) before.length value := by
  induction value using Value.induction generalizing before after with
  | bytes b =>
    rw [listing]
    exact .bytes (by simp)
  | map entries ih =>
    rw [listing]
    have hhere : (before ++ .map (slotsFrom (before.length + 1) entries)
        :: listings (before.length + 1) entries ++ after)[before.length]?
        = some (.map (slotsFrom (before.length + 1) entries)) := by
      simp
    refine .map hhere (map_fst_slotsFrom _ entries) fun k ref e href he => ?_
    have hlength : before.length + 1
        = (before ++ [Record.map (slotsFrom (before.length + 1) entries)]).length := by
      simp
    rw [hlength] at href
    simpa using holding_listings ih _ after href he

/-- The slots of a listing are named **once each**, but for the first. -/
private theorem targets_listings {entries : Mapping}
    (h : ∀ e ∈ entries, ∀ slot, (slot :: (listing slot e.2).flatMap Record.targets).Perm
      (List.range' slot (listing slot e.2).length)) (slot : Nat) :
    ((slotsFrom slot entries).map (·.2) ++ (listings slot entries).flatMap Record.targets).Perm
      (List.range' slot (listings slot entries).length) := by
  induction entries generalizing slot with
  | nil => simp [slotsFrom, listings]
  | cons e entries ih =>
    obtain ⟨hfirst, hentries⟩ := List.forall_mem_cons.mp h
    have hrest := ih hentries (slot + (listing slot e.2).length)
    rw [slotsFrom, listings, List.map_cons, List.flatMap_append, List.length_append,
      ← List.range'_append_1]
    have hmove : (slot :: (slotsFrom (slot + (listing slot e.2).length) entries).map (·.2)
          ++ ((listing slot e.2).flatMap Record.targets
            ++ (listings (slot + (listing slot e.2).length) entries).flatMap Record.targets)).Perm
        ((slot :: (listing slot e.2).flatMap Record.targets)
          ++ ((slotsFrom (slot + (listing slot e.2).length) entries).map (·.2)
            ++ (listings (slot + (listing slot e.2).length) entries).flatMap Record.targets)) := by
      rw [List.cons_append, List.cons_append]
      refine List.Perm.cons _ ?_
      rw [← List.append_assoc, ← List.append_assoc]
      exact List.perm_append_comm.append_right _
    exact hmove.trans ((hfirst slot).append hrest)

theorem targets_listing (value : Value) (slot : Nat) :
    (slot :: (listing slot value).flatMap Record.targets).Perm
      (List.range' slot (listing slot value).length) := by
  induction value using Value.induction generalizing slot with
  | bytes b => simp [listing, Record.targets]
  | map entries ih =>
    rw [listing, List.flatMap_cons, List.length_cons, List.range'_succ]
    exact (targets_listings ih (slot + 1)).cons slot

/-! ## §5 The nested reading -/

/-- An entry is **ignored**, with everything in it, when one before it has its key. -/
theorem nested_ignore {before : Mapping} {key : String} (h : key ∈ keys before) (value : Value)
    (after : Mapping) : nested (before ++ (key, value) :: after) = nested (before ++ after) := by
  have hbeside : ∀ names : List String, key ∈ names ++ keys before →
      keptBeside names (before ++ (key, value) :: after) = keptBeside names (before ++ after) := by
    clear h
    induction before with
    | nil =>
      intro names hmem
      exact keptBeside_cons_of_mem (by simpa [keys] using hmem) after
    | cons e before ih =>
      intro names hmem
      rw [List.cons_append, List.cons_append]
      by_cases he : e.1 ∈ names
      · rw [keptBeside_cons_of_mem he, keptBeside_cons_of_mem he]
        apply ih
        simp only [keys, List.map_cons, List.mem_append, List.mem_cons] at hmem ⊢
        rcases hmem with hmem | rfl | hmem
        · exact .inl hmem
        · exact .inl he
        · exact .inr hmem
      · rw [keptBeside_cons_of_notMem he, keptBeside_cons_of_notMem he, ih]
        simpa [keys] using hmem
  rw [← keptBeside_nil, ← keptBeside_nil, hbeside [] (by simpa using h)]

/-- **The first entry of every key wins**, at every level. The nested normal form is what the rule
says: the keys of each level stand as they come first, and each holds the normal form of its first
value, even of an empty mapping, while all later ones are ignored. It is also what lies in the slots
when all entries wait in one list: the first slot holds it, and every other one is named once by one
mapping. -/
theorem nested_first_wins (mapping : Mapping) :
    FirstsOnly (.map mapping) (.map (nested mapping))
      ∧ (∀ other, FirstsOnly (.map mapping) other → other = .map (nested mapping))
      ∧ (∀ before key value after, mapping = before ++ (key, value) :: after → key ∈ keys before →
        nested mapping = nested (before ++ after))
      ∧ Holding (slots mapping) 0 (.map (nested mapping))
      ∧ (∀ other, Holding (slots mapping) 0 other → other = .map (nested mapping))
      ∧ (0 :: (slots mapping).flatMap Record.targets).Perm
        (List.range (slots mapping).length) := by
  have hfirsts := firstsOnly_nestedValue (.map mapping)
  rw [nestedValue_map] at hfirsts
  have hholding := holding_listing (.map (nested mapping)) [] []
  rw [List.nil_append, List.append_nil, List.length_nil, ← slots_eq_listing] at hholding
  refine ⟨hfirsts, fun other h => h.unique hfirsts, ?_, hholding, fun other h => h.unique hholding,
    ?_⟩
  · rintro before key value after rfl hkey
    exact nested_ignore hkey value after
  · rw [slots_eq_listing, List.range_eq_range']
    exact targets_listing _ 0

end Mapping

end HashTree
