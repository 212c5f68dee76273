import HostScript.Proofs.Declaring
import HostScript.Proofs.Objects
import HostScript.Proofs.Runs
/-!
# Reference counts

An object is meant to count the variables that hold its handle. An assignment counts the object that it
is given, while the variable may hold something else after the conversion to its type. So the counts are
exact throughout a run exactly if every assignment stores a handle of the object it was given, and no
object is created at a place that a variable names already. As long as they are, no object is taken away
from a variable that holds it.
-/

set_option autoImplicit false

namespace HostScript

namespace ScriptState

variable {κ μ : Type} [NativeObject κ μ] {registry : Registry κ} {s t : ScriptState κ} {p : Nat × UInt32}

/-! ## Holders -/

/-- The value is a handle that names a place. -/
def holds (v : Value) (p : Nat × UInt32) : Bool := (Handle.ofValue? v).map Handle.place = some p

/-- How many variables hold a handle that names a place. -/
def holders (s : ScriptState κ) (p : Nat × UInt32) : Nat := s.vars.countP fun x => holds x.value p

/-- Every object counts the variables that hold it. -/
def Exact (s : ScriptState κ) : Prop := ∀ p n, s.arena.count? p = some n → n = s.holders p

/-- No object goes that a variable still holds. -/
def NoneLost (e : Effect κ μ) : Prop :=
  ∀ x ∈ e.after.vars, (e.before.objectOf? x.value).isSome → (e.after.objectOf? x.value).isSome

/-- What an assignment stores names the object that it was given, and no object appears where a variable
named none. -/
structure Faithful (e : Effect κ μ) : Prop where
  stored : ∀ index v, e.use = .access (.variable index) (.write v) → ∀ x ∈ e.before.vars[index]?,
    e.before.objectOf? (x.value.assign v) = e.before.objectOf? v
  fresh : ∀ x ∈ e.after.vars, e.before.objectOf? x.value = none → e.after.objectOf? x.value = none

/-- One for the object that a handle names, and zero for any other. -/
def share (h : Option Handle) (p : Nat × UInt32) : Nat := if h.map Handle.place = some p then 1 else 0

omit [NativeObject κ μ] in
theorem objectOf_eq_some {v : Value} {h : Handle} :
    s.objectOf? v = some h ↔ Handle.ofValue? v = some h ∧ (s.arena.count? h.place).isSome := by
  rw [objectOf?, Option.filter_eq_some_iff, Arena.contains_eq]

omit [NativeObject κ μ] in
theorem isSome_objectOf {v : Value} : (s.objectOf? v).isSome ↔ ∃ p, holds v p ∧ (s.arena.count? p).isSome := by
  simp only [Option.isSome_iff_exists (x := s.objectOf? v), objectOf_eq_some, holds, decide_eq_true_iff]
  constructor
  · rintro ⟨h, hv, hc⟩
    exact ⟨h.place, by rw [hv]; rfl, hc⟩
  · rintro ⟨p, hp, hc⟩
    obtain ⟨h, hv, rfl⟩ := Option.map_eq_some_iff.mp hp
    exact ⟨h, hv, hc⟩

theorem holds_unique {v : Value} {q : Nat × UInt32} (hp : holds v p) (hq : holds v q) : p = q := by
  simp only [holds, decide_eq_true_iff] at hp hq
  exact Option.some_inj.mp (hp.symm.trans hq)

omit [NativeObject κ μ] in
/-- Where there is an object, a value holds it exactly if it is the object of the value. -/
theorem share_objectOf (hp : (s.arena.count? p).isSome) (v : Value) :
    share (s.objectOf? v) p = if holds v p then 1 else 0 := by
  have hiff : (s.objectOf? v).map Handle.place = some p ↔ holds v p := by
    simp only [holds, decide_eq_true_iff, Option.map_eq_some_iff, objectOf_eq_some]
    constructor
    · rintro ⟨h, ⟨hv, -⟩, rfl⟩
      exact ⟨h, hv, rfl⟩
    · rintro ⟨h, hv, rfl⟩
      exact ⟨h, ⟨hv, hp⟩, rfl⟩
  simp only [share, hiff]

omit [NativeObject κ μ] in
/-- Two values have the same object if they hold the same places where there are objects. -/
theorem objectOf_ext {v w : Value}
    (h : ∀ p, (s.arena.count? p).isSome → share (s.objectOf? v) p = share (s.objectOf? w) p) :
    s.objectOf? v = s.objectOf? w := by
  ext a
  have hstep : ∀ v w : Value, (∀ p, (s.arena.count? p).isSome → share (s.objectOf? v) p = share (s.objectOf? w) p) →
      s.objectOf? v = some a → s.objectOf? w = some a := by
    intro v w h hv
    have hw := h a.place (objectOf_eq_some.mp hv).2
    rw [hv, share, share, Option.map_some, if_pos rfl] at hw
    split at hw
    · rename_i hb
      obtain ⟨b, hb, he⟩ := Option.map_eq_some_iff.mp hb
      rw [hb, Handle.place_inj.mp he]
    · cases hw
  exact ⟨hstep v w h, hstep w v fun p hp => (h p hp).symm⟩

theorem share_ne {a b : Option Handle} (hab : a ≠ b) (ha : share a p = 1) : share b p = 0 := by
  unfold share at *
  split at ha
  · rename_i hap
    refine if_neg fun hbp => hab ?_
    obtain ⟨h, rfl, hp⟩ := Option.map_eq_some_iff.mp hap
    obtain ⟨h', rfl, hp'⟩ := Option.map_eq_some_iff.mp hbp
    rw [Handle.place_inj.mp (hp.trans hp'.symm)]
  · cases ha

/-! ## Moving a reference -/

/-- The objects without the reference to the old object, and with one to the new object. -/
def leaveOld (arena : Arena (ScriptObject κ)) (old : Option Handle) : Arena (ScriptObject κ) :=
  old.elim arena fun h => (Arena.release ScriptObject.mayGo arena h).1

def takeNew (arena : Arena (ScriptObject κ)) (new : Option Handle) : Arena (ScriptObject κ) :=
  new.elim arena arena.retain

theorem moveReference_eq (arena : Arena (ScriptObject κ)) (old new : Option Handle) :
    moveReference arena old new = if old = new then arena else takeNew (leaveOld arena old) new := by
  cases old <;> cases new <;> rfl

theorem count_takeNew (arena : Arena (ScriptObject κ)) (new : Option Handle) :
    (takeNew arena new).count? p = (arena.count? p).map (· + share new p) := by
  cases new with
  | none => simp [takeNew, share]
  | some h =>
    rw [takeNew, Option.elim_some, Arena.count_retain]
    by_cases hh : h.place = p <;> simp [share, hh]

theorem count_leaveOld (arena : Arena (ScriptObject κ)) (old : Option Handle) :
    (leaveOld arena old).count? p = (arena.count? p).map (· - share old p) ∨
      share old p = 1 ∧ (∀ n, arena.count? p = some n → n ≤ 1) ∧ (leaveOld arena old).count? p = none := by
  cases old with
  | none => exact .inl (by simp [leaveOld, share])
  | some h =>
    rcases Arena.count_release ScriptObject.mayGo arena h p with he | ⟨hh, hn, he⟩
    · refine .inl (he.trans ?_)
      by_cases hh : h.place = p <;> simp [share, hh]
    · exact .inr ⟨by simp [share, hh], hn, he⟩

theorem count_moveReference_none {arena : Arena (ScriptObject κ)} (old new : Option Handle)
    (hp : arena.count? p = none) : (moveReference arena old new).count? p = none := by
  rw [moveReference_eq]
  split
  · exact hp
  · rcases count_leaveOld (p := p) arena old with he | ⟨-, -, he⟩ <;> simp [count_takeNew, he, hp]

/-- Moving a reference counts one less where it was and one more where it goes. An object may go with the
last reference. -/
theorem count_moveReference {arena : Arena (ScriptObject κ)} {old new : Option Handle} (hne : old ≠ new) {n : Nat}
    (hp : arena.count? p = some n) :
    (moveReference arena old new).count? p = some (n - share old p + share new p) ∨
      share old p = 1 ∧ n ≤ 1 ∧ (moveReference arena old new).count? p = none := by
  rw [moveReference_eq, if_neg hne, count_takeNew]
  rcases count_leaveOld (p := p) arena old with he | ⟨hshare, hn, he⟩
  · exact .inl (by simp [he, hp])
  · exact .inr ⟨hshare, hn n hp, by simp [he]⟩

theorem wellFormed_moveReference {arena : Arena (ScriptObject κ)} (hw : arena.WellFormed) (old new : Option Handle) :
    (moveReference arena old new).WellFormed := by
  have hold : (leaveOld arena old).WellFormed := by
    cases old with
    | none => exact hw
    | some h => exact hw.release _ h
  rw [moveReference_eq]
  split
  · exact hw
  · cases new with
    | none => exact hold
    | some h => exact hold.modifySlot h _

/-! ## Assignments -/

section Assignment

variable {index : Nat} {x : ScriptVariable} (hx : s.vars[index]? = some x) (v : Value)

include hx

theorem holders_assign (p : Nat × UInt32) :
    (s.assignVariable index x v).holders p =
        s.holders p - (if holds x.value p then 1 else 0) + (if holds (x.value.assign v) p then 1 else 0) ∧
      (if holds x.value p then 1 else 0) ≤ s.holders p := by
  obtain ⟨hi, hxi⟩ := List.getElem?_eq_some_iff.mp hx
  constructor
  · simp only [holders, assignVariable]
    rw [List.countP_set hi, hxi]
  · split
    · rename_i hp
      exact List.countP_pos_iff.mpr ⟨x, List.mem_of_getElem? hx, hp⟩
    · exact Nat.zero_le _

/-- Where there was an object, the holders change by what the variable held and what it holds then. -/
theorem holders_assign_share (hexact : s.Exact) {n : Nat} (hp : s.arena.count? p = some n) :
    (s.assignVariable index x v).holders p =
        n - share (s.objectOf? x.value) p + share (s.objectOf? (x.value.assign v)) p ∧
      share (s.objectOf? x.value) p ≤ n := by
  have hsome : (s.arena.count? p).isSome := by rw [hp]; rfl
  rw [share_objectOf hsome, share_objectOf hsome, hexact p n hp]
  exact holders_assign hx v p

omit hx in
/-- What an assignment does to the count of an object, if it moves a reference. -/
theorem count_assign (hmoves : s.objectOf? x.value ≠ s.objectOf? v) {n : Nat} (hp : s.arena.count? p = some n) :
    (s.assignVariable index x v).arena.count? p =
        some (n - share (s.objectOf? x.value) p + share (s.objectOf? v) p) ∨
      share (s.objectOf? x.value) p = 1 ∧ n ≤ 1 ∧ (s.assignVariable index x v).arena.count? p = none :=
  count_moveReference hmoves hp

omit hx in
theorem count_assign_none (hp : s.arena.count? p = none) : (s.assignVariable index x v).arena.count? p = none :=
  count_moveReference_none _ _ hp

/-- An assignment that keeps the counts exact and loses no object stores what it was given. -/
theorem stored_of_exact (hexact : s.Exact) (hexact' : (s.assignVariable index x v).Exact)
    (hlost : ∀ y ∈ (s.assignVariable index x v).vars,
      (s.objectOf? y.value).isSome → ((s.assignVariable index x v).objectOf? y.value).isSome) :
    s.objectOf? (x.value.assign v) = s.objectOf? v := by
  refine objectOf_ext fun p hp => ?_
  obtain ⟨n, hn⟩ := Option.isSome_iff_exists.mp hp
  obtain ⟨hh, hle⟩ := holders_assign_share hx v hexact hn
  by_cases hsame : s.objectOf? x.value = s.objectOf? v
  · have harena : (s.assignVariable index x v).arena = s.arena := if_pos hsame
    have hcount := hexact' p n (by rw [harena, hn])
    rw [← hsame]
    omega
  · rcases count_assign v hsame hn with hcount | ⟨hold, -, hgone⟩
    · have := hexact' p _ hcount
      omega
    · -- the object went, so the variable cannot hold it
      rw [share_ne hsame hold, share_objectOf hp]
      refine if_neg fun hholds => ?_
      have hmem : { x with value := x.value.assign v } ∈ (s.assignVariable index x v).vars :=
        List.mem_set (List.getElem?_eq_some_iff.mp hx).1 _
      obtain ⟨q, hq, hsome⟩ := isSome_objectOf.mp (hlost _ hmem (isSome_objectOf.mpr ⟨p, hholds, hp⟩))
      rw [holds_unique hq hholds, hgone] at hsome
      cases hsome

/-- An assignment that stores what it was given keeps the counts exact. -/
theorem exact_of_stored (hexact : s.Exact) (hstored : s.objectOf? (x.value.assign v) = s.objectOf? v) :
    (s.assignVariable index x v).Exact := by
  intro p m hm
  cases hn : s.arena.count? p with
  | none =>
    rw [count_assign_none v hn] at hm
    cases hm
  | some n =>
    obtain ⟨hh, hle⟩ := holders_assign_share hx v hexact hn
    by_cases hsame : s.objectOf? x.value = s.objectOf? v
    · have harena : (s.assignVariable index x v).arena = s.arena := if_pos hsame
      rw [harena, hn, Option.some_inj] at hm
      rw [hstored, ← hsame] at hh
      omega
    · rcases count_assign v hsame hn with hcount | ⟨-, -, hgone⟩
      · rw [hh, hstored]
        exact Option.some_inj.mp (hm.symm.trans hcount)
      · rw [hgone] at hm
        cases hm

/-- An assignment that stores what it was given takes no object away that is still held. -/
theorem kept_of_stored (hexact : s.Exact) (hstored : s.objectOf? (x.value.assign v) = s.objectOf? v) :
    ∀ y ∈ (s.assignVariable index x v).vars,
      (s.objectOf? y.value).isSome → ((s.assignVariable index x v).objectOf? y.value).isSome := by
  intro y hy hsome
  obtain ⟨p, hholds, hp⟩ := isSome_objectOf.mp hsome
  refine isSome_objectOf.mpr ⟨p, hholds, ?_⟩
  by_cases hsame : s.objectOf? x.value = s.objectOf? v
  · have harena : (s.assignVariable index x v).arena = s.arena := if_pos hsame
    rwa [harena]
  · obtain ⟨n, hn⟩ := Option.isSome_iff_exists.mp hp
    rcases count_assign v hsame hn with hcount | ⟨hold, hone, -⟩
    · rw [hcount]
      rfl
    · -- only the variable held the object, and it holds another one now
      obtain ⟨hh, -⟩ := holders_assign_share hx v hexact hn
      have hpos : 0 < (s.assignVariable index x v).holders p := List.countP_pos_iff.mpr ⟨y, hy, hholds⟩
      rw [hstored, share_ne hsame hold] at hh
      omega

end Assignment

/-! ## Other effects -/

section Objects

variable (hvars : t.vars = s.vars)

include hvars

omit [NativeObject κ μ] in
theorem holders_eq (p : Nat × UInt32) : t.holders p = s.holders p := by rw [holders, hvars, holders]

omit [NativeObject κ μ] in
/-- The counts stay exact while no object is added. -/
theorem exact_of_fewer (hexact : s.Exact) (hc : ∀ p n, t.arena.count? p = some n → s.arena.count? p = some n) :
    t.Exact := fun p n hn => (hexact p n (hc p n hn)).trans (holders_eq hvars p).symm

omit hvars [NativeObject κ μ] in
theorem isSome_objectOf_mono (hc : ∀ p, (s.arena.count? p).isSome → (t.arena.count? p).isSome) {v : Value}
    (h : (s.objectOf? v).isSome) : (t.objectOf? v).isSome := by
  obtain ⟨p, hholds, hp⟩ := isSome_objectOf.mp h
  exact isSome_objectOf.mpr ⟨p, hholds, hc p hp⟩

omit hvars [NativeObject κ μ] in
theorem objectOf_none_mono (hc : ∀ p, (t.arena.count? p).isSome → (s.arena.count? p).isSome) {v : Value}
    (h : s.objectOf? v = none) : t.objectOf? v = none := by
  rw [← Option.not_isSome_iff_eq_none] at *
  exact fun ht => h (isSome_objectOf_mono hc ht)

omit [NativeObject κ μ] in
/-- Creating an object keeps the counts exact exactly if no variable names its place already. -/
theorem insert_exact_iff (hw : s.arena.WellFormed) (hexact : s.Exact) {o : ScriptObject κ}
    (ht : t.arena = (s.arena.insert o).1) :
    (t.Exact ∧ ∀ x ∈ t.vars, (s.objectOf? x.value).isSome → (t.objectOf? x.value).isSome) ↔
      ∀ x ∈ t.vars, s.objectOf? x.value = none → t.objectOf? x.value = none := by
  obtain ⟨q, hq, hcount⟩ := Arena.count_insert hw o
  rw [← ht] at hcount
  have hmore : ∀ p, (s.arena.count? p).isSome → (t.arena.count? p).isSome := by
    intro p hp
    rw [hcount]
    split
    · rfl
    · exact hp
  rw [and_iff_left fun x _ => isSome_objectOf_mono hmore]
  constructor
  · intro hexact' x hx hnone
    rw [← Option.not_isSome_iff_eq_none]
    intro hsome
    obtain ⟨p, hholds, hp⟩ := isSome_objectOf.mp hsome
    by_cases hqp : q = p
    · have hzero := hexact' p 0 (by rw [hcount, if_pos hqp])
      have hpos : 0 < t.holders p := List.countP_pos_iff.mpr ⟨x, hx, hholds⟩
      omega
    · rw [hcount, if_neg hqp] at hp
      exact Option.isSome_iff_ne_none.mp (isSome_objectOf.mpr ⟨p, hholds, hp⟩) hnone
  · intro hfresh p n hn
    rw [hcount] at hn
    split at hn
    · rename_i hqp
      subst hqp
      cases hn
      refine (Nat.eq_zero_of_not_pos fun hpos => ?_).symm
      obtain ⟨x, hx, hholds⟩ := List.countP_pos_iff.mp hpos
      have hnone : s.objectOf? x.value = none := by
        rw [← Option.not_isSome_iff_eq_none]
        intro hsome
        obtain ⟨p, hp, hlive⟩ := isSome_objectOf.mp hsome
        rw [holds_unique hp hholds, hq] at hlive
        cases hlive
      have hsome : (t.objectOf? x.value).isSome :=
        isSome_objectOf.mpr ⟨q, hholds, by rw [hcount, if_pos rfl]; rfl⟩
      rw [hfresh x hx hnone] at hsome
      cases hsome
    · rw [holders_eq hvars]
      exact hexact p n hn

end Objects

/-! ## Effects -/

theorem effect_wellFormed {e : Effect κ μ} (he : Happens registry e) (hb : e.before.bound = false)
    (hw : e.before.arena.WellFormed) : e.after.arena.WellFormed := by
  cases he with
  | release s h => exact hw.collect _ h
  | access s i a hown =>
    cases hassign : assignment? s i a with
    | some r =>
      rw [access_assignment registry hassign]
      exact wellFormed_moveReference hw _ _
    | none =>
      rcases access_arena registry (hown hb) hassign with ha | ⟨o, ha⟩ | ⟨h, o, ha⟩
      · exact ha ▸ hw
      · exact ha ▸ hw.insert o
      · exact ha ▸ hw.modifySlot h _

/-- Letting a temporary object go keeps the counts exact. An object that goes counted no reference, so no
variable held it. -/
theorem release_exact (registry : Registry κ) (h : Handle) (hexact : s.Exact) :
    ((scope registry).release h s).Exact ∧ NoneLost (μ := μ) ⟨s, .release h, (scope registry).release h s⟩ ∧
      Faithful (μ := μ) ⟨s, .release h, (scope registry).release h s⟩ := by
  have hvars : ((scope registry).release h s).vars = s.vars := rfl
  have harena : ((scope registry).release h s).arena = (Arena.collect ScriptObject.mayGo s.arena h).1 := rfl
  generalize (scope registry).release h s = t at *
  have hcount := Arena.count_collect ScriptObject.mayGo s.arena h
  rw [← harena] at hcount
  have hfewer : ∀ p n, t.arena.count? p = some n → s.arena.count? p = some n := by
    intro p n hn
    rcases hcount with hc | ⟨-, hc⟩
    · rwa [← hc]
    · rw [hc] at hn
      split at hn
      · cases hn
      · exact hn
  refine ⟨exact_of_fewer hvars hexact hfewer, fun x hx hsome => ?_, ?_, fun x _ => objectOf_none_mono fun p hp => ?_⟩
  · obtain ⟨p, hholds, hp⟩ := isSome_objectOf.mp hsome
    refine isSome_objectOf.mpr ⟨p, hholds, ?_⟩
    rcases hcount with hc | ⟨hzero, hc⟩
    · rwa [hc]
    · have hne : h.place ≠ p := by
        rintro rfl
        have hpos : 0 < t.holders h.place := List.countP_pos_iff.mpr ⟨x, hx, hholds⟩
        rw [holders_eq hvars, ← hexact _ _ hzero] at hpos
        exact absurd hpos (Nat.lt_irrefl 0)
      rwa [hc, if_neg hne]
  · rintro _ _ ⟨⟩
  · obtain ⟨n, hn⟩ := Option.isSome_iff_exists.mp hp
    rw [hfewer p n hn]
    rfl

/-- An assignment keeps the counts exact and loses no object exactly if it is faithful. -/
theorem assign_exact_iff {index : Nat} {x : ScriptVariable} {v : Value} (hx : s.vars[index]? = some x)
    (hexact : s.Exact) :
    (s.assignVariable index x v).Exact ∧
        NoneLost (μ := μ) ⟨s, .access (.variable index) (.write v), s.assignVariable index x v⟩ ↔
      Faithful (μ := μ) ⟨s, .access (.variable index) (.write v), s.assignVariable index x v⟩ := by
  constructor
  · rintro ⟨hexact', hlost⟩
    constructor
    · rintro _ _ ⟨⟩ y hy
      rw [Option.mem_def, hx] at hy
      cases hy
      exact stored_of_exact hx v hexact hexact' hlost
    · refine fun y _ => objectOf_none_mono fun p hp => ?_
      rw [Option.isSome_iff_ne_none] at *
      exact fun hnone => hp (count_assign_none v hnone)
  · intro hfaithful
    have hstored := hfaithful.stored index v rfl x hx
    exact ⟨exact_of_stored hx v hexact hstored, kept_of_stored hx v hexact hstored⟩

/-- Any other access keeps the counts exact exactly if it is faithful. -/
theorem access_exact_iff {i : ScriptId μ} {a : Access} (hi : i.Own) (hassign : assignment? s i a = none)
    (hw : s.arena.WellFormed) (hexact : s.Exact) :
    (access registry i a s).2.Exact ∧ NoneLost ⟨s, .access i a, (access registry i a s).2⟩ ↔
      Faithful ⟨s, .access i a, (access registry i a s).2⟩ := by
  obtain ⟨hvars, -⟩ := access_vars registry hassign
  have harena := access_arena registry hi hassign
  generalize (access registry i a s).2 = t at *
  have hfaithful : Faithful ⟨s, .access i a, t⟩ ↔
      ∀ x ∈ t.vars, s.objectOf? x.value = none → t.objectOf? x.value = none := by
    refine ⟨fun h => h.fresh, fun h => ⟨?_, h⟩⟩
    rintro index v ⟨⟩ x hx
    rw [Option.mem_def] at hx
    simp [assignment?, hx] at hassign
  rw [hfaithful]
  have hsame : (∀ p, t.arena.count? p = s.arena.count? p) → (t.Exact ∧ NoneLost ⟨s, .access i a, t⟩ ↔
      ∀ x ∈ t.vars, s.objectOf? x.value = none → t.objectOf? x.value = none) := fun hc =>
    iff_of_true ⟨exact_of_fewer hvars hexact fun p n hn => by rwa [← hc],
      fun x _ => isSome_objectOf_mono fun p hp => by rwa [hc]⟩
      fun x _ => objectOf_none_mono fun p hp => by rwa [← hc]
  rcases harena with ha | ⟨o, ha⟩ | ⟨h, o, ha⟩
  · exact hsame fun p => by rw [ha]
  · exact insert_exact_iff hvars hw hexact ha
  · exact hsame fun p => by rw [ha, Arena.count_setObject]

/-- A single effect keeps the counts exact and loses no object exactly if it is faithful. -/
theorem effect_exact_iff {e : Effect κ μ} (he : Happens registry e) (hb : e.before.bound = false)
    (hw : e.before.arena.WellFormed) (hexact : e.before.Exact) : e.after.Exact ∧ NoneLost e ↔ Faithful e := by
  cases he with
  | release s h =>
    obtain ⟨hexact', hlost, hfaithful⟩ := release_exact (μ := μ) registry h hexact
    exact iff_of_true ⟨hexact', hlost⟩ hfaithful
  | access s i a hown =>
    cases hassign : assignment? s i a with
    | some r =>
      obtain ⟨index, x, v⟩ := r
      rw [access_assignment registry hassign]
      obtain ⟨rfl, rfl, hx⟩ := assignment_eq hassign
      exact assign_exact_iff hx hexact
    | none => exact access_exact_iff (hown hb) hassign hw hexact

/-! ## Runs -/

theorem SameHeap.exact_iff (h : SameHeap s t) : s.Exact ↔ t.Exact := by
  rw [Exact, Exact, h.arena]
  simp only [holders, h.vars]

/-- All along a chain the counts are exact and no object is lost exactly if every effect is faithful. -/
theorem chain_exact {es : List (Effect κ μ)} (h : Chain registry s es t) (hb : s.bound = false)
    (hw : s.arena.WellFormed) (hexact : s.Exact) :
    ((∀ e ∈ es, e.after.Exact ∧ NoneLost e) ↔ ∀ e ∈ es, Faithful e) ∧ ((∀ e ∈ es, Faithful e) → t.Exact) := by
  induction h with
  | quiet hq => simpa using hq.exact_iff.mp hexact
  | @effect s t e es hq he _ ih =>
    have hb : e.before.bound = false := hq.bound.symm.trans hb
    have hw : e.before.arena.WellFormed := hq.arena ▸ hw
    have hstep := effect_exact_iff he hb hw (hq.exact_iff.mp hexact)
    have hb' : e.after.bound = false := by
      cases he with
      | access s i a => exact (access_bound i a s).trans hb
      | release s h => exact hb
    have ih := ih hb' (effect_wellFormed he hb hw)
    simp only [List.forall_mem_cons, hstep]
    refine ⟨and_congr_right fun hf => (ih (hstep.mpr hf).1).1, ?_⟩
    rintro ⟨hf, h⟩
    exact (ih (hstep.mpr hf).1).2 h

omit [NativeObject κ μ] in
/-- A script without objects counts exactly. -/
theorem exact_empty (hs : s.arena = .empty) : s.Exact := by
  intro p n hn
  rw [hs, Arena.count_empty] at hn
  cases hn

end ScriptState

open ScriptState

variable {κ μ : Type} [NativeObject κ μ]

/-- Of a script that is compiled without a host, every object counts exactly the variables that hold it, and
none is taken away from a variable, after every effect and every operation of whatever is done with the
script, exactly if all its effects are faithful. -/
theorem counts_exact_iff (i : Interpreter κ) (source : String) (hphase : i.script.phase ≠ .running)
    (hbound : i.script.bound = false) (hparams : i.script.binding.parameters = []) (ops : List Operation) :
    ((∀ e ∈ Operation.runEffects (i.compile source).1 ops, e.after.Exact ∧ NoneLost e) ∧
        ∀ j ∈ Operation.run (i.compile source).1 ops, j.script.Exact) ↔
      ∀ e ∈ Operation.runEffects (i.compile source).1 ops, Faithful e := by
  obtain ⟨hb, harena⟩ := compile_bare i source hphase hbound hparams
  obtain ⟨t, hchain, hend⟩ := Operation.run_leads ops (i.compile source).1
  have hw : (i.compile source).1.script.arena.WellFormed := harena ▸ Arena.wellFormed_empty
  obtain ⟨hiff, hlast⟩ := chain_exact hchain hb hw (exact_empty harena)
  rw [hiff]
  refine and_iff_left_of_imp fun hf j hj => ?_
  exact (hend j hj).2.exact_iff.mp (hlast hf)

/-! ## A stale count -/

/-- An object without members, which may go at any time. -/
inductive Plain where
  | plain

instance : NativeObject Plain Empty where
  typeName _ := "Plain"
  members _ := []
  access _ m := m.elim
  mayGo _ := true

/-- The application lets scripts create plain objects. -/
def plainRegistry : Registry Plain := Registry.empty.registerFactory ⟨"Plain", fun _ => .ok .plain⟩

/-- A handle that is assigned to an integer is counted and never let go. -/
theorem counts_stale_in_integer :
    let i := Interpreter.new plainRegistry false 0
    let j := (i.compile "object c = Create(\"Plain\"); int i; i = c; c = 0;").1
    let ops := [Operation.execute 100 .init, Operation.execute 100 .run]
    (i.script.phase ≠ .running ∧ i.script.bound = false ∧ i.script.binding.parameters = []) ∧
      (Operation.run j ops).map (fun k => (k.script.arena.count? (0, 0), k.script.holders (0, 0))) = some (some 1, 0) ∧
      ∃ e ∈ Operation.runEffects j ops, ¬Faithful e := by
  intro i j ops
  have hend : (Operation.run j ops).map (fun k => (k.script.arena.count? (0, 0), k.script.holders (0, 0))) =
      some (some 1, 0) := by decide +kernel
  refine ⟨⟨nofun, rfl, rfl⟩, hend, Classical.byContradiction fun hnone => ?_⟩
  have hfaithful : ∀ e ∈ Operation.runEffects j ops, Faithful e := fun e he =>
    Classical.byContradiction fun hf => hnone ⟨e, he, hf⟩
  obtain ⟨k, hk, hcounts⟩ := Option.map_eq_some_iff.mp hend
  obtain ⟨hcount, hholders⟩ := Prod.mk.injEq _ _ _ _ ▸ hcounts
  have hexact := ((counts_exact_iff i _ nofun rfl rfl ops).mpr hfaithful).2 k hk (0, 0) 1 hcount
  rw [hholders] at hexact
  cases hexact

end HostScript
