import HostScript.Proofs.Objects
import Mathlib.Logic.ExistsUnique
/-!
# Handles to objects

Slots are used again and again, and a handle tells by the generation which object of a slot it was made for. What an
operation on an arena does to the slots is said once: it changes the count or the state of an object in its slot,
empties the slot of an object, or puts an object into a slot, which is the one emptied last or a new one. So the slots
that are to be used again are just the empty ones, whatever handles the operations are given. And a handle whose
object has gone finds nothing any more, until its slot was used again so often that the generations start anew.
-/

set_option autoImplicit false

namespace HostScript

/-- What is done to an arena. Objects that are asked whether they may go may answer as they like each time, and they
may change at any time. -/
inductive ArenaOperation (ω : Type) where
  | insert (object : ω)
  | set (h : Handle) (object : ω)
  | retain (h : Handle)
  | release (agrees : ω → Bool) (h : Handle)
  | collect (agrees : ω → Bool) (h : Handle)
  | remove (h : Handle)

namespace ArenaOperation

variable {ω : Type}

def after (arena : Arena ω) : ArenaOperation ω → Arena ω
  | insert object => (arena.insert object).1
  | set h object => arena.set h object
  | retain h => arena.retain h
  | release agrees h => (arena.release agrees h).1
  | collect agrees h => (arena.collect agrees h).1
  | remove h => (arena.remove h).1

/-- The empty slot that an operation puts an object into. -/
def reused? (arena : Arena ω) : ArenaOperation ω → Option Nat
  | insert _ => arena.free.head?
  | _ => none

end ArenaOperation

namespace Arena

variable {ω : Type} {arena arena' : Arena ω} {h : Handle} {i : Nat} {reused : Option Nat}

/-! ## Steps -/

/-- What becomes of the slots, and which of them is used again. -/
inductive Step (arena : Arena ω) : Option Nat → Arena ω → Prop
  | unchanged : Step arena none arena
  /-- An object stays in its slot. -/
  | changes (h : Handle) (slot slot' : Slot ω) : arena.slot? h = some slot → slot'.generation = slot.generation →
    slot'.object.isSome → Step arena none ⟨arena.slots.set h.index.toNat slot', arena.free⟩
  | empties (h : Handle) (slot : Slot ω) : arena.slot? h = some slot →
    Step arena none ⟨arena.slots.set h.index.toNat ⟨slot.generation, 0, none⟩, h.index.toNat :: arena.free⟩
  /-- There is no empty slot, and a new one is made. -/
  | adds (object : ω) : arena.free = [] → Step arena none ⟨arena.slots ++ [⟨0, 0, some object⟩], []⟩
  /-- The slot that was emptied last is used again. -/
  | reuses (i : Nat) (free : List Nat) (slot : Slot ω) (object : ω) : arena.free = i :: free →
    arena.slots[i]? = some slot → slot.object = none →
    Step arena (some i) ⟨arena.slots.set i ⟨slot.generation + 1, 0, some object⟩, free⟩

theorem insert_step (hw : arena.WellFormed) (object : ω) : Step arena arena.free.head? (arena.insert object).1 := by
  unfold Arena.insert
  cases hf : arena.free with
  | nil => exact .adds object hf
  | cons i free =>
    obtain ⟨slot, hslot, hnone⟩ := hw.empty i (hf ▸ List.mem_cons_self)
    dsimp only
    rw [hslot]
    exact .reuses i free slot object hf hslot hnone

theorem modifySlot_step (f : Slot ω → Slot ω) (hgeneration : ∀ slot, (f slot).generation = slot.generation)
    (hobject : ∀ slot, slot.object.isSome → (f slot).object.isSome) (h : Handle) :
    Step arena none (arena.modifySlot h f) := by
  unfold modifySlot
  cases hs : arena.slot? h with
  | none => exact .unchanged
  | some slot => exact .changes h slot (f slot) hs (hgeneration slot) (hobject slot (slot_eq_some.mp hs).2.2)

theorem remove_step (h : Handle) : Step arena none (arena.remove h).1 := by
  cases hs : arena.slot? h with
  | none =>
    rw [Arena.remove, hs]
    exact .unchanged
  | some slot =>
    rw [remove_eq hs]
    exact .empties h slot hs

theorem collect_step (agrees : ω → Bool) (h : Handle) : Step arena none (collect agrees arena h).1 := by
  unfold collect
  split
  · exact .unchanged
  · split
    · exact remove_step h
    · exact .unchanged

theorem slot_modifySlot {f : Slot ω → Slot ω} {slot : Slot ω} (hs : arena.slot? h = some slot)
    (hgeneration : (f slot).generation = slot.generation) (hobject : (f slot).object.isSome) :
    (arena.modifySlot h f).slot? h = some (f slot) := by
  obtain ⟨hslot, hmade, -⟩ := slot_eq_some.mp hs
  have hi := (List.getElem?_eq_some_iff.mp hslot).1
  rw [modifySlot, hs]
  exact slot_eq_some.mpr ⟨List.getElem?_set_self hi, hgeneration.trans hmade, hobject⟩

/-- A slot that is emptied after its count has changed is emptied. -/
theorem release_step (agrees : ω → Bool) (h : Handle) : Step arena none (release agrees arena h).1 := by
  unfold release collect
  cases hs : arena.slot? h with
  | none =>
    rw [modifySlot, hs]
    dsimp only
    rw [hs]
    exact .unchanged
  | some slot =>
    have hsome := (slot_eq_some.mp hs).2.2
    have hslot := slot_modifySlot (f := fun slot => { slot with refs := slot.refs - 1 }) hs rfl hsome
    rw [hslot]
    dsimp only
    split
    · rw [remove_eq hslot, modifySlot, hs]
      dsimp only
      rw [List.set_set]
      exact .empties h slot hs
    · rw [modifySlot, hs]
      exact .changes h slot _ hs rfl hsome

theorem after_step (hw : arena.WellFormed) (op : ArenaOperation ω) :
    Step arena (op.reused? arena) (op.after arena) := by
  cases op with
  | insert object => exact insert_step hw object
  | set h object =>
    exact modifySlot_step (fun slot => { slot with object := some object }) (fun _ => rfl) (fun _ _ => rfl) h
  | retain h => exact modifySlot_step (fun slot => { slot with refs := slot.refs + 1 }) (fun _ => rfl) (fun _ => id) h
  | release agrees h => exact release_step agrees h
  | collect agrees h => exact collect_step agrees h
  | remove h => exact remove_step h

/-! ## Empty slots -/

/-- There is a slot of this number, without an object. -/
def Vacant (arena : Arena ω) (i : Nat) : Prop := ∃ slot, arena.slots[i]? = some slot ∧ slot.object = none

theorem vacant_set (hi : i < arena.slots.length) (slot : Slot ω) (free : List Nat) (j : Nat) :
    Vacant ⟨arena.slots.set i slot, free⟩ j ↔ if j = i then slot.object = none else arena.Vacant j := by
  unfold Vacant
  split
  · rename_i hj
    rw [hj, List.getElem?_set_self hi]
    simp
  · rename_i hj
    rw [List.getElem?_set_ne (Ne.symm hj)]

theorem not_vacant {slot : Slot ω} (hs : arena.slot? h = some slot) : ¬arena.Vacant h.index.toNat := by
  obtain ⟨hslot, -, hobject⟩ := slot_eq_some.mp hs
  rintro ⟨empty, hempty, hnone⟩
  obtain rfl : slot = empty := Option.some_inj.mp (hslot.symm.trans hempty)
  simp [hnone] at hobject

/-- The slots to be used again are the empty ones, each of them once. -/
structure FreeExact (arena : Arena ω) : Prop where
  mem_iff : ∀ i, i ∈ arena.free ↔ arena.Vacant i
  nodup : arena.free.Nodup

theorem FreeExact.wellFormed (h : arena.FreeExact) : arena.WellFormed := ⟨fun i => (h.mem_iff i).mp, h.nodup⟩

theorem freeExact_empty : (empty : Arena ω).FreeExact := ⟨by simp [Arena.empty, Vacant], .nil⟩

theorem FreeExact.step (hf : arena.FreeExact) (hs : Step arena reused arena') : arena'.FreeExact := by
  cases hs with
  | unchanged => exact hf
  | changes h slot slot' hslot _ hsome =>
    have hi := (List.getElem?_eq_some_iff.mp (slot_eq_some.mp hslot).1).1
    refine ⟨fun j => ?_, hf.nodup⟩
    rw [vacant_set hi]
    split
    · rename_i hj
      rw [hj, hf.mem_iff]
      simp [not_vacant hslot, Option.isSome_iff_ne_none.mp hsome]
    · exact hf.mem_iff j
  | empties h slot hslot =>
    have hi := (List.getElem?_eq_some_iff.mp (slot_eq_some.mp hslot).1).1
    refine ⟨fun j => ?_, List.nodup_cons.mpr ⟨fun hmem => not_vacant hslot ((hf.mem_iff _).mp hmem), hf.nodup⟩⟩
    rw [vacant_set hi, List.mem_cons, hf.mem_iff]
    split <;> simp [*]
  | adds object hfree =>
    have hfull : ∀ j, ¬arena.Vacant j := fun j hj => by simpa [hfree] using (hf.mem_iff j).mpr hj
    refine ⟨fun j => ?_, .nil⟩
    simp only [List.not_mem_nil, false_iff]
    rintro ⟨slot, hslot, hnone⟩
    rw [List.getElem?_append] at hslot
    split at hslot
    · exact hfull j ⟨slot, hslot, hnone⟩
    · obtain rfl := List.mem_singleton.mp (List.mem_of_getElem? hslot)
      cases hnone
  | reuses i free slot object hfree hslot hnone =>
    have hi := (List.getElem?_eq_some_iff.mp hslot).1
    have hnodup := List.nodup_cons.mp (hfree ▸ hf.nodup)
    refine ⟨fun j => ?_, hnodup.2⟩
    rw [vacant_set hi]
    split
    · rename_i hj
      simpa [hj] using hnodup.1
    · rename_i hj
      rw [← hf.mem_iff, hfree, List.mem_cons]
      simp [hj]

/-! ## Generations -/

/-- What becomes of one slot: it is used again with the next generation, or keeps its generation and stays empty if it
is empty. -/
inductive SlotStep (slot : Slot ω) (reused : Prop) (slot' : Slot ω) : Prop
  | reused : reused → slot'.generation = slot.generation + 1 → SlotStep slot reused slot'
  | kept : ¬reused → slot'.generation = slot.generation → (slot.object = none → slot'.object = none) →
    SlotStep slot reused slot'

theorem SlotStep.rfl {slot : Slot ω} {reused : Prop} (h : ¬reused) : SlotStep slot reused slot := .kept h (Eq.refl _) id

/-- What becomes of a slot when one is set. -/
theorem slotStep_set {slots : List (Slot ω)} {slot : Slot ω} (hslot : slots[i]? = some slot) {j : Nat} {slot' : Slot ω}
    (hset : j = i → SlotStep slot (reused = some i) slot') (hkept : j ≠ i → reused ≠ some i) :
    ∃ next, (slots.set j slot')[i]? = some next ∧ SlotStep slot (reused = some i) next := by
  by_cases hj : j = i
  · subst hj
    exact ⟨slot', List.getElem?_set_self (List.getElem?_eq_some_iff.mp hslot).1, hset (Eq.refl _)⟩
  · exact ⟨slot, by rw [List.getElem?_set_ne hj, hslot], .rfl (hkept hj)⟩

theorem Step.slot (hs : Step arena reused arena') {slot : Slot ω} (hslot : arena.slots[i]? = some slot) :
    ∃ slot', arena'.slots[i]? = some slot' ∧ SlotStep slot (reused = some i) slot' := by
  cases hs with
  | unchanged => exact ⟨slot, hslot, .rfl (by simp)⟩
  | changes h old new hold hgeneration _ =>
    obtain ⟨hold, -, hobject⟩ := slot_eq_some.mp hold
    refine slotStep_set hslot (fun hj => ?_) (by simp)
    obtain rfl : slot = old := Option.some_inj.mp (hslot.symm.trans (hj ▸ hold))
    exact .kept (by simp) hgeneration fun hnone => by simp [hnone] at hobject
  | empties h old hold =>
    obtain ⟨hold, -⟩ := slot_eq_some.mp hold
    refine slotStep_set hslot (fun hj => ?_) (by simp)
    obtain rfl : slot = old := Option.some_inj.mp (hslot.symm.trans (hj ▸ hold))
    exact .kept (by simp) (Eq.refl _) fun _ => Eq.refl _
  | adds object hfree =>
    have hi := (List.getElem?_eq_some_iff.mp hslot).1
    exact ⟨slot, by rw [List.getElem?_append_left hi, hslot], .rfl (by simp)⟩
  | reuses j free old object hfree hold hnone =>
    refine slotStep_set hslot (fun hj => ?_) fun hj => by simpa using hj
    obtain rfl : slot = old := Option.some_inj.mp (hslot.symm.trans (hj ▸ hold))
    exact .reused (congrArg some hj) (Eq.refl _)

theorem contains_iff :
    arena.contains h = true ↔
      ∃ slot, arena.slots[h.index.toNat]? = some slot ∧ slot.generation = h.generation ∧ slot.object.isSome := by
  rw [contains, Option.isSome_iff_exists]
  exact exists_congr fun _ => slot_eq_some

end Arena

namespace ArenaOperation

open Arena

variable {ω : Type} {arena : Arena ω} {h : Handle} {i n : Nat} {ops : List (ArenaOperation ω)}

/-- The arena after operations. -/
def afterAll (arena : Arena ω) (ops : List (ArenaOperation ω)) : Arena ω := ops.foldl after arena

/-- How often operations use a slot again. -/
def reuses (i : Nat) (arena : Arena ω) : List (ArenaOperation ω) → Nat
  | [] => 0
  | op :: ops => (if op.reused? arena = some i then 1 else 0) + reuses i (op.after arena) ops

theorem freeExact_afterAll (hf : arena.FreeExact) (ops : List (ArenaOperation ω)) : (afterAll arena ops).FreeExact := by
  induction ops generalizing arena with
  | nil => exact hf
  | cons op ops ih => exact ih (hf.step (after_step hf.wellFormed op))

theorem reuses_append (i : Nat) (arena : Arena ω) (ops later : List (ArenaOperation ω)) :
    reuses i arena (ops ++ later) = reuses i arena ops + reuses i (afterAll arena ops) later := by
  induction ops generalizing arena with
  | nil => exact (Nat.zero_add _).symm
  | cons op ops ih => rw [List.cons_append, reuses, reuses, ih, Nat.add_assoc, afterAll, afterAll, List.foldl_cons]

/-- The slot of a handle has been used again a number of times since the handle was made. If its object has gone before,
the slot is empty as long as that number is zero. -/
def Aged (arena : Arena ω) (h : Handle) (gone : Prop) (n : Nat) : Prop :=
  ∃ slot, arena.slots[h.index.toNat]? = some slot ∧ slot.generation = h.generation + UInt32.ofNat n ∧
    (gone → n = 0 → slot.object = none)

theorem aged_afterAll {gone : Prop} (hf : arena.FreeExact) (ha : Aged arena h gone n) (ops : List (ArenaOperation ω)) :
    Aged (afterAll arena ops) h gone (n + reuses h.index.toNat arena ops) := by
  induction ops generalizing arena n with
  | nil => exact ha
  | cons op ops ih =>
    obtain ⟨slot, hslot, hgeneration, hgone⟩ := ha
    obtain ⟨slot', hslot', hstep⟩ := (after_step hf.wellFormed op).slot hslot
    have hnext : Aged (op.after arena) h gone (n + if op.reused? arena = some h.index.toNat then 1 else 0) := by
      refine ⟨slot', hslot', ?_⟩
      cases hstep with
      | reused hreused hnext =>
        rw [if_pos hreused, hnext, hgeneration, UInt32.ofNat_add, UInt32.add_assoc]
        exact ⟨rfl, by simp⟩
      | kept hreused hsame hempty =>
        rw [if_neg hreused, hsame, hgeneration]
        exact ⟨rfl, fun hg hn => hempty (hgone hg hn)⟩
    rw [reuses, ← Nat.add_assoc]
    exact ih (hf.step (after_step hf.wellFormed op)) hnext

/-- The generations start anew no sooner than the numbers do. -/
theorem ofNat_ne_zero (hn : n < UInt32.size) (h0 : n ≠ 0) : UInt32.ofNat n ≠ 0 := by
  intro h
  exact h0 ((UInt32.toNat_ofNat_of_lt' hn).symm.trans (congrArg UInt32.toNat h))

/-- A handle that was made for an object finds it as long as it finds anything. -/
theorem Aged.gone {gone : Prop} (ha : Aged arena h gone n) (hgone : arena.contains h = false) : Aged arena h True n := by
  obtain ⟨slot, hslot, hgeneration, -⟩ := ha
  refine ⟨slot, hslot, hgeneration, fun _ hn => Option.not_isSome_iff_eq_none.mp fun hobject => ?_⟩
  have hsame : slot.generation = h.generation := by simpa [hn] using hgeneration
  rw [contains_iff.mpr ⟨slot, hslot, hsame, hobject⟩] at hgone
  cases hgone

theorem Aged.not_contains (ha : Aged arena h True n) (hn : n < UInt32.size) : arena.contains h = false := by
  obtain ⟨slot, hslot, hgeneration, hgone⟩ := ha
  refine Bool.eq_false_iff.mpr fun hcontains => ?_
  obtain ⟨_, hslot', hsame, hobject⟩ := contains_iff.mp hcontains
  obtain rfl := Option.some_inj.mp (hslot.symm.trans hslot')
  have hzero : n = 0 := Classical.byContradiction fun h0 => ofNat_ne_zero hn h0 (by simpa using hgeneration.symm.trans hsame)
  simp [hgone trivial hzero] at hobject

end ArenaOperation

namespace Arena

variable {ω : Type} {arena : Arena ω}

/-! ## Safety -/

/-- Every object is found through one handle, as long as handles have room for the number of its slot. -/
def Named (arena : Arena ω) : Prop :=
  ∀ i slot, arena.slots[i]? = some slot → slot.object.isSome → i < UInt32.size →
    ∃! h : Handle, h.index.toNat = i ∧ arena.slot? h = some slot

theorem named (arena : Arena ω) : arena.Named := by
  intro i slot hslot hobject hi
  have hindex : (UInt32.ofNat i).toNat = i := UInt32.toNat_ofNat_of_lt' hi
  refine ⟨⟨UInt32.ofNat i, slot.generation⟩, ⟨hindex, slot_eq_some.mpr ⟨by rw [hindex, hslot], rfl, hobject⟩⟩, ?_⟩
  rintro ⟨index, generation⟩ ⟨hsame, hfound⟩
  obtain ⟨-, hgeneration, -⟩ := slot_eq_some.mp hfound
  rw [← Handle.place_inj]
  exact Prod.ext (hsame.trans hindex.symm) hgeneration.symm

/-- A new object goes into a slot without one, and the other slots stay as they are. -/
theorem FreeExact.insert (hf : arena.FreeExact) (object : ω) :
    ∃ i generation, (arena.insert object).2 = ⟨UInt32.ofNat i, generation⟩ ∧ i ≤ arena.slots.length ∧
      (∀ slot, arena.slots[i]? = some slot → slot.object = none) ∧
      (arena.insert object).1.slots[i]? = some ⟨generation, 0, some object⟩ ∧
      ∀ j, j ≠ i → (arena.insert object).1.slots[j]? = arena.slots[j]? := by
  unfold Arena.insert
  cases hfree : arena.free with
  | nil =>
    refine ⟨arena.slots.length, 0, rfl, Nat.le_refl _, by simp, List.getElem?_concat_length, fun j hj => ?_⟩
    rcases Nat.lt_or_gt_of_ne hj with hlt | hgt
    · exact List.getElem?_append_left hlt
    · rw [List.getElem?_eq_none (Nat.le_of_lt hgt), List.getElem?_eq_none]
      simpa using Nat.succ_le_of_lt hgt
  | cons i free =>
    obtain ⟨old, hold, hnone⟩ := (hf.mem_iff i).mp (hfree ▸ List.mem_cons_self)
    have hi := (List.getElem?_eq_some_iff.mp hold).1
    refine ⟨i, _, rfl, Nat.le_of_lt hi, fun slot hslot => ?_, List.getElem?_set_self hi, fun j hj => ?_⟩
    · rw [← Option.some_inj.mp (hold.symm.trans hslot), hnone]
    · exact List.getElem?_set_ne (Ne.symm hj)

/-- A new object changes nothing for those that are there, and is found through a handle that found nothing before. -/
structure InsertsApart (arena : Arena ω) (object : ω) : Prop where
  others : ∀ h slot, arena.slot? h = some slot → (arena.insert object).1.slot? h = some slot
  fresh : arena.slots.length < UInt32.size → arena.contains (arena.insert object).2 = false
  found : arena.slots.length < UInt32.size → (arena.insert object).1.get? (arena.insert object).2 = some object

theorem FreeExact.insertsApart (hf : arena.FreeExact) (object : ω) : arena.InsertsApart object := by
  obtain ⟨i, generation, hhandle, hle, hnone, hslot, hothers⟩ := hf.insert object
  have hindex : arena.slots.length < UInt32.size → (arena.insert object).2.index.toNat = i := fun hlt => by
    rw [hhandle]
    exact UInt32.toNat_ofNat_of_lt' (Nat.lt_of_le_of_lt hle hlt)
  refine ⟨fun h slot hs => ?_, fun hlt => ?_, fun hlt => ?_⟩
  · obtain ⟨hold, hrest⟩ := slot_eq_some.mp hs
    have hne : h.index.toNat ≠ i := by
      rintro rfl
      simp [hnone slot hold] at hrest
    exact slot_eq_some.mpr ⟨by rw [hothers _ hne, hold], hrest⟩
  · refine Bool.eq_false_iff.mpr fun hcontains => ?_
    obtain ⟨slot, hold, -, hobject⟩ := contains_iff.mp hcontains
    rw [hindex hlt] at hold
    simp [hnone slot hold] at hobject
  · have hfound : (arena.insert object).1.slot? (arena.insert object).2 = some ⟨generation, 0, some object⟩ :=
      slot_eq_some.mpr ⟨by rw [hindex hlt, hslot], by rw [hhandle], rfl⟩
    rw [get?, hfound]
    rfl

end Arena

open Arena ArenaOperation in
/-- Whatever is done to an arena, with handles of any origin: the slots to be used again are exactly the empty ones,
every object is found through one handle, and inserting another one changes nothing for it. A handle that has found an
object once and nothing later finds nothing any more, as long as its slot is not used again 2^32 times. -/
theorem handles_safe {ω : Type} (ops : List (ArenaOperation ω)) :
    (afterAll .empty ops).FreeExact ∧ (afterAll .empty ops).Named ∧
      (∀ object, (afterAll .empty ops).InsertsApart object) ∧
      ∀ gone later h, (afterAll .empty ops).contains h = true → (afterAll .empty (ops ++ gone)).contains h = false →
        reuses h.index.toNat (afterAll .empty ops) (gone ++ later) < UInt32.size →
        (afterAll .empty (ops ++ gone ++ later)).contains h = false := by
  have hf := freeExact_afterAll freeExact_empty ops
  refine ⟨hf, named _, hf.insertsApart, fun gone later h hfound hgone hreuses => ?_⟩
  have hsplit : ∀ ops' : List (ArenaOperation ω), afterAll .empty (ops ++ ops') = afterAll (afterAll .empty ops) ops' :=
    fun ops' => List.foldl_append
  rw [List.append_assoc, hsplit, ArenaOperation.afterAll, List.foldl_append]
  rw [hsplit] at hgone
  rw [reuses_append] at hreuses
  obtain ⟨slot, hslot, hgeneration, -⟩ := contains_iff.mp hfound
  have hmade : Aged (afterAll .empty ops) h False 0 := ⟨slot, hslot, by simp [hgeneration], by simp⟩
  have hspent := aged_afterAll (freeExact_afterAll hf gone) (aged_afterAll hf hmade gone |>.gone hgone) later
  rw [Nat.zero_add] at hspent
  exact hspent.not_contains hreuses

/-- The slot of an object that was removed is used again, and the old handle finds nothing there. -/
example :
    let arena := ArenaOperation.afterAll .empty [.insert 'a', .insert 'b', .remove ⟨0, 0⟩, .remove ⟨0, 0⟩, .insert 'c']
    arena.contains ⟨0, 0⟩ = false ∧ arena.get? ⟨0, 1⟩ = some 'c' ∧ arena.get? ⟨1, 0⟩ = some 'b' := by decide

end HostScript
