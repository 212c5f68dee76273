import HostScript.Script.Scope
/-!
# Counting references in the arena

An object has a place in the arena: its slot, and the generation of what the slot holds. Everything the
arena does to the objects is told by the count at each place, which is missing where there is no object.
Retaining and releasing change the count at one place, collecting takes a place without references away,
and creating adds a place that was not there.
-/

set_option autoImplicit false

namespace HostScript

/-- The place of an object that a handle names. -/
def Handle.place (h : Handle) : Nat × UInt32 := (h.index.toNat, h.generation)

theorem Handle.place_inj {h h' : Handle} : h.place = h'.place ↔ h = h' := by
  obtain ⟨i, g⟩ := h
  obtain ⟨i', g'⟩ := h'
  simp [place, UInt32.toNat_inj]

namespace Arena

variable {ω : Type} {arena : Arena ω} {h : Handle} {p : Nat × UInt32}

/-- How many references to the object of a generation a slot counts, if it holds one. -/
def countIn? (slot : Slot ω) (g : UInt32) : Option Nat :=
  if slot.generation = g ∧ slot.object.isSome then some slot.refs else none

/-- How many references to the object at a place there are, if there is an object. -/
def count? (arena : Arena ω) (p : Nat × UInt32) : Option Nat := arena.slots[p.1]?.bind (countIn? · p.2)

/-- The slots to be used again are empty ones, each of them once. -/
structure WellFormed (arena : Arena ω) : Prop where
  empty : ∀ i ∈ arena.free, ∃ slot, arena.slots[i]? = some slot ∧ slot.object = none
  nodup : arena.free.Nodup

theorem wellFormed_empty : (empty : Arena ω).WellFormed := ⟨by simp [Arena.empty], .nil⟩

theorem count_empty (p : Nat × UInt32) : (empty : Arena ω).count? p = none := by simp [count?, Arena.empty]

/-! ## Slots and places -/

theorem slot_eq_some {slot : Slot ω} :
    arena.slot? h = some slot ↔
      arena.slots[h.index.toNat]? = some slot ∧ slot.generation = h.generation ∧ slot.object.isSome := by
  unfold slot?
  split
  · rename_i slot' h'
    rw [h', Option.ite_none_right_eq_some, Option.some_inj]
    constructor
    · rintro ⟨hs, rfl⟩
      exact ⟨rfl, hs⟩
    · rintro ⟨rfl, hs⟩
      exact ⟨hs, rfl⟩
  · rename_i h'
    simp [h']

theorem count_place (arena : Arena ω) (h : Handle) : arena.count? h.place = (arena.slot? h).map (·.refs) := by
  unfold count? slot? Handle.place
  cases arena.slots[h.index.toNat]? with
  | none => rfl
  | some slot =>
    simp only [Option.bind_some, countIn?]
    split <;> rfl

theorem contains_eq (arena : Arena ω) (h : Handle) : arena.contains h = (arena.count? h.place).isSome := by
  rw [count_place, contains, Option.isSome_map]

/-- The counts after one slot is replaced. -/
theorem count_set {i : Nat} (hi : i < arena.slots.length) (slot : Slot ω) (free : List Nat) (p : Nat × UInt32) :
    count? ⟨arena.slots.set i slot, free⟩ p = if p.1 = i then countIn? slot p.2 else arena.count? p := by
  unfold count?
  split
  · rename_i hp
    rw [hp, List.getElem?_set_self hi, Option.bind_some]
  · rename_i hp
    rw [List.getElem?_set_ne (Ne.symm hp)]

/-- The counts after the slot of an object is replaced within its generation. -/
theorem count_replace {slot slot' : Slot ω} (hs : arena.slot? h = some slot)
    (hg : slot'.generation = slot.generation) (free : List Nat) (p : Nat × UInt32) :
    count? ⟨arena.slots.set h.index.toNat slot', free⟩ p =
      if h.place = p then countIn? slot' p.2 else arena.count? p := by
  obtain ⟨hslot, hgen, -⟩ := slot_eq_some.mp hs
  have hi := (List.getElem?_eq_some_iff.mp hslot).1
  rw [count_set hi]
  obtain ⟨j, g⟩ := p
  by_cases hj : j = h.index.toNat
  · subst hj
    by_cases hg' : h.generation = g
    · simp [Handle.place, hg']
    · have hne : slot'.generation ≠ g := by rwa [hg, hgen]
      have hne' : slot.generation ≠ g := by rwa [hgen]
      simp [Handle.place, hg', count?, hslot, countIn?, hne, hne']
  · simp [Handle.place, hj, Ne.symm hj]

theorem WellFormed.replace {slot slot' : Slot ω} (hw : arena.WellFormed) (hs : arena.slot? h = some slot) :
    WellFormed ⟨arena.slots.set h.index.toNat slot', arena.free⟩ := by
  obtain ⟨hslot, -, hobj⟩ := slot_eq_some.mp hs
  refine ⟨fun i hi => ?_, hw.nodup⟩
  obtain ⟨e, he, hnone⟩ := hw.empty i hi
  have hne : h.index.toNat ≠ i := by
    rintro rfl
    rw [hslot] at he
    cases he
    simp [hnone] at hobj
  exact ⟨e, by rw [List.getElem?_set_ne hne, he], hnone⟩

/-! ## What the operations do -/

theorem count_modifySlot {f : Slot ω → Slot ω} {g : Nat → Nat}
    (hf : ∀ slot, (f slot).generation = slot.generation ∧ (f slot).refs = g slot.refs)
    (hobj : ∀ slot, slot.object.isSome → (f slot).object.isSome) (arena : Arena ω) (h : Handle) (p : Nat × UInt32) :
    (arena.modifySlot h f).count? p = if h.place = p then (arena.count? p).map g else arena.count? p := by
  unfold modifySlot
  cases hs : arena.slot? h with
  | none =>
    dsimp only
    split
    · rename_i hp
      rw [← hp, count_place, hs]
      rfl
    · rfl
  | some slot =>
    obtain ⟨-, hgen, hsome⟩ := slot_eq_some.mp hs
    dsimp only
    rw [count_replace hs (hf slot).1]
    split
    · rename_i hp
      subst hp
      have hgen' : (f slot).generation = h.place.2 := (hf slot).1.trans hgen
      rw [count_place, hs, countIn?, if_pos ⟨hgen', hobj slot hsome⟩, (hf slot).2]
      rfl
    · rfl

theorem WellFormed.modifySlot (hw : arena.WellFormed) (h : Handle) (f : Slot ω → Slot ω) :
    (arena.modifySlot h f).WellFormed := by
  unfold Arena.modifySlot
  cases hs : arena.slot? h with
  | none => exact hw
  | some slot => exact hw.replace hs

/-- Replacing an object by a later state changes no count. -/
theorem count_setObject (arena : Arena ω) (h : Handle) (o : ω) (p : Nat × UInt32) :
    (arena.set h o).count? p = arena.count? p := by
  refine (count_modifySlot (f := fun slot => { slot with object := some o }) (g := id) (fun _ => ⟨rfl, rfl⟩)
    (fun _ _ => rfl) arena h p).trans ?_
  simp

theorem count_retain (arena : Arena ω) (h : Handle) (p : Nat × UInt32) :
    (arena.retain h).count? p = if h.place = p then (arena.count? p).map (· + 1) else arena.count? p :=
  count_modifySlot (f := fun slot => { slot with refs := slot.refs + 1 }) (g := (· + 1)) (fun _ => ⟨rfl, rfl⟩)
    (fun _ => id) arena h p

theorem remove_eq {slot : Slot ω} (hs : arena.slot? h = some slot) :
    (arena.remove h).1 = ⟨arena.slots.set h.index.toNat ⟨slot.generation, 0, none⟩, h.index.toNat :: arena.free⟩ := by
  simp [remove, hs]

theorem WellFormed.remove (hw : arena.WellFormed) (h : Handle) : (arena.remove h).1.WellFormed := by
  cases hs : arena.slot? h with
  | none => simpa [Arena.remove, hs] using hw
  | some slot =>
    obtain ⟨hslot, -, hobj⟩ := slot_eq_some.mp hs
    have hi := (List.getElem?_eq_some_iff.mp hslot).1
    have hfresh : h.index.toNat ∉ arena.free := by
      intro hmem
      obtain ⟨e, he, hnone⟩ := hw.empty _ hmem
      rw [hslot] at he
      cases he
      simp [hnone] at hobj
    rw [remove_eq hs]
    refine ⟨?_, List.nodup_cons.mpr ⟨hfresh, hw.nodup⟩⟩
    intro i hmem
    rcases List.mem_cons.mp hmem with rfl | hmem
    · exact ⟨_, List.getElem?_set_self hi, rfl⟩
    · exact (hw.replace hs).empty i hmem

/-- Collecting changes nothing, or takes away an object without references. -/
theorem count_collect (agrees : ω → Bool) (arena : Arena ω) (h : Handle) :
    (collect agrees arena h).1 = arena ∨
      arena.count? h.place = some 0 ∧
        ∀ p, (collect agrees arena h).1.count? p = if h.place = p then none else arena.count? p := by
  unfold collect
  cases hs : arena.slot? h with
  | none => exact .inl rfl
  | some slot =>
    dsimp only
    split
    · rename_i hgo
      refine .inr ⟨by rw [count_place, hs, Option.map_some, hgo.1], fun p => ?_⟩
      rw [remove_eq hs]
      have hempty : (⟨slot.generation, 0, none⟩ : Slot ω).generation = slot.generation := rfl
      refine (count_replace hs hempty _ p).trans ?_
      simp [countIn?]
    · exact .inl rfl

theorem WellFormed.collect (hw : arena.WellFormed) (agrees : ω → Bool) (h : Handle) :
    (Arena.collect agrees arena h).1.WellFormed := by
  unfold Arena.collect
  split
  · exact hw
  · split
    · exact hw.remove h
    · exact hw

/-- Releasing counts one reference less, and may take the object away with the last one. -/
theorem count_release (agrees : ω → Bool) (arena : Arena ω) (h : Handle) (p : Nat × UInt32) :
    (release agrees arena h).1.count? p = (if h.place = p then (arena.count? p).map (· - 1) else arena.count? p) ∨
      h.place = p ∧ (∀ n, arena.count? p = some n → n ≤ 1) ∧ (release agrees arena h).1.count? p = none := by
  have hmod := count_modifySlot (f := fun slot => { slot with refs := slot.refs - 1 }) (g := (· - 1))
    (fun _ => ⟨rfl, rfl⟩) (fun _ => id) arena h
  unfold release
  rcases count_collect agrees (arena.modifySlot h fun slot => { slot with refs := slot.refs - 1 }) h with he | ⟨hz, he⟩
  · exact .inl (by rw [he, hmod])
  · rw [he, hmod]
    by_cases hp : h.place = p
    · subst hp
      refine .inr ⟨rfl, fun n hn => ?_, if_pos rfl⟩
      rw [hmod, if_pos rfl, hn, Option.map_some, Option.some_inj] at hz
      omega
    · exact .inl (by rw [if_neg hp, if_neg hp])

theorem WellFormed.release (hw : arena.WellFormed) (agrees : ω → Bool) (h : Handle) :
    (Arena.release agrees arena h).1.WellFormed := (hw.modifySlot h _).collect agrees h

/-- A new object gets a place that was not there, and no references. -/
theorem count_insert (hw : arena.WellFormed) (o : ω) :
    ∃ q, arena.count? q = none ∧
      ∀ p, (arena.insert o).1.count? p = if q = p then some 0 else arena.count? p := by
  unfold insert
  cases hf : arena.free with
  | nil =>
    refine ⟨(arena.slots.length, 0), by simp [count?], fun ⟨j, g⟩ => ?_⟩
    rcases Nat.lt_trichotomy j arena.slots.length with hj | rfl | hj
    · simp [count?, List.getElem?_append_left hj, Ne.symm (Nat.ne_of_lt hj)]
    · simp [count?, countIn?]
    · have hne : arena.slots.length ≠ j := Nat.ne_of_lt hj
      have hlen : (arena.slots ++ [(⟨0, 0, some o⟩ : Slot ω)]).length ≤ j := by
        rw [List.length_append, List.length_singleton]
        omega
      simp [count?, hne, Nat.le_of_lt hj, List.getElem?_eq_none hlen]
  | cons i free =>
    obtain ⟨slot, hslot, hnone⟩ := hw.empty i (by simp [hf])
    have hi := (List.getElem?_eq_some_iff.mp hslot).1
    refine ⟨(i, slot.generation + 1), by simp [count?, countIn?, hslot, hnone], fun ⟨j, g⟩ => ?_⟩
    simp only [hslot, Option.map_some, Option.getD_some]
    rw [count_set hi]
    by_cases hj : j = i
    · subst hj
      simp [count?, countIn?, hslot, hnone]
    · simp [hj, Ne.symm hj]

theorem WellFormed.insert (hw : arena.WellFormed) (o : ω) : (arena.insert o).1.WellFormed := by
  unfold Arena.insert
  cases hf : arena.free with
  | nil => exact ⟨by simp, .nil⟩
  | cons i free =>
    have hnodup := hf ▸ hw.nodup
    refine ⟨fun j hj => ?_, (List.nodup_cons.mp hnodup).2⟩
    obtain ⟨slot, hslot, hnone⟩ := hw.empty j (by simp [hf, hj])
    have hne : i ≠ j := by
      rintro rfl
      exact (List.nodup_cons.mp hnodup).1 hj
    exact ⟨slot, by rw [List.getElem?_set_ne hne, hslot], hnone⟩

end Arena

end HostScript
