import HostScript.Host.Directory
/-!
# Looking up in directories

A directory is seen through its lookups: what is put under a key is found there, and nothing else changes.
As long as the keys increase, an entry is what is found under its key.
-/

set_option autoImplicit false

namespace HostScript.Directory

variable {κ α : Type} [DecidableEq κ] {d : Directory κ α} {k key : κ} {a : α}

/-! ## Lookups -/

theorem find_cons (e : κ × α) (entries : List (κ × α)) (key : κ) :
    find? ⟨e :: entries⟩ key = if e.1 = key then some e.2 else find? ⟨entries⟩ key := by
  unfold find?
  by_cases h : e.1 = key <;> simp [h]

/-- What is found is an entry. -/
theorem mem_of_find (h : d.find? key = some a) : (key, a) ∈ d.entries := by
  obtain ⟨⟨k, b⟩, he, rfl⟩ := Option.map_eq_some_iff.mp h
  obtain rfl : k = key := by simpa using List.find?_some he
  exact List.mem_of_find?_eq_some he

/-! ## Without some keys -/

section Without

variable {keys keys' : List κ}

/-- The entries of other keys. -/
def without (d : Directory κ α) (keys : List κ) : Directory κ α := ⟨d.entries.filter (·.1 ∉ keys)⟩

theorem find_without (d : Directory κ α) (keys : List κ) (key : κ) :
    (d.without keys).find? key = if key ∈ keys then none else d.find? key := by
  obtain ⟨entries⟩ := d
  induction entries with
  | nil => simp [without, find?]
  | cons e entries ih =>
    have ih : find? ⟨entries.filter (·.1 ∉ keys)⟩ key = if key ∈ keys then none else find? ⟨entries⟩ key := ih
    change find? ⟨(e :: entries).filter (·.1 ∉ keys)⟩ key = _
    rw [find_cons, List.filter_cons]
    by_cases hkept : e.1 ∉ keys
    · rw [if_pos (by simpa using hkept), find_cons, ih]
      by_cases he : e.1 = key
      · rw [if_pos he, if_pos he, if_neg (he ▸ hkept)]
      · rw [if_neg he, if_neg he]
    · rw [if_neg (by simpa using hkept), ih]
      split
      · rfl
      · rename_i hkey
        have hne : e.1 ≠ key := fun he => hkey (he ▸ Classical.not_not.mp hkept)
        rw [if_neg hne]

/-- What is left is found where it was. -/
theorem find_of_without (hkey : (d.without keys).contains key = true) :
    d.find? key = (d.without keys).find? key := by
  rw [contains, find_without] at hkey
  rw [find_without]
  split at hkey
  · cases hkey
  · rw [if_neg ‹_›]

theorem contains_cases (keys : List κ) (hkey : d.contains key = true) :
    (d.without keys).contains key = true ∨ key ∈ keys := by
  rw [contains, find_without]
  by_cases hmem : key ∈ keys
  · exact .inr hmem
  · rw [if_neg hmem]
    exact .inl hkey

theorem without_congr (d : Directory κ α) (h : ∀ key, key ∈ keys ↔ key ∈ keys') : d.without keys = d.without keys' :=
  congrArg Directory.mk (List.filter_congr fun e _ => decide_eq_decide.mpr (not_congr (h e.1)))

theorem without_nil (d : Directory κ α) : d.without [] = d :=
  congrArg Directory.mk (List.filter_eq_self.mpr fun _ _ => rfl)

theorem erase_eq (d : Directory κ α) (key : κ) : d.erase key = d.without [key] :=
  congrArg Directory.mk (List.filter_congr fun e _ => decide_eq_decide.mpr (by simp))

theorem without_without (d : Directory κ α) (keys keys' : List κ) :
    (d.without keys).without keys' = d.without (keys ++ keys') := by
  refine congrArg Directory.mk ((List.filter_filter).trans (List.filter_congr fun e _ => ?_))
  rw [← Bool.decide_and]
  exact decide_eq_decide.mpr (by simp [and_comm])

/-- A key that is not there need not be left out. -/
theorem without_absent (h : d.find? key = none) (keys : List κ) : d.without (keys ++ [key]) = d.without keys := by
  have hall : ∀ e ∈ d.entries, e.1 ≠ key := by simpa [find?] using h
  refine congrArg Directory.mk (List.filter_congr fun e he => decide_eq_decide.mpr ?_)
  simp [hall e he]

end Without

/-! ## Erasing -/

@[simp]
theorem find_erase_self (d : Directory κ α) (key : κ) : (d.erase key).find? key = none := by
  rw [erase_eq, find_without, if_pos (List.mem_singleton_self _)]

theorem find_erase_ne (d : Directory κ α) (h : k ≠ key) : (d.erase key).find? k = d.find? k := by
  rw [erase_eq, find_without, if_neg (by simpa using h)]

/-- A key that is not there cannot be erased. -/
theorem erase_eq_self (h : d.find? key = none) : d.erase key = d := by
  have hall : ∀ e ∈ d.entries, e.1 ≠ key := by simpa [find?] using h
  obtain ⟨entries⟩ := d
  exact congrArg Directory.mk (List.filter_eq_self.mpr fun e he => by simpa using hall e he)

/-! ## Inserting -/

section Ordered

variable [LT κ] [DecidableLT κ]

@[simp]
theorem find_insert_self (d : Directory κ α) (key : κ) (a : α) : (d.insert key a).find? key = some a := by
  obtain ⟨entries⟩ := d
  change find? ⟨insertEntry key a entries⟩ key = some a
  induction entries with
  | nil => simp [insertEntry, find_cons]
  | cons e entries ih =>
    unfold insertEntry
    split
    · simp [find_cons]
    · split
      · simp [find_cons]
      · rename_i hne
        rw [find_cons, if_neg (Ne.symm hne), ih]

theorem find_insert_ne (d : Directory κ α) (h : k ≠ key) (a : α) : (d.insert key a).find? k = d.find? k := by
  obtain ⟨entries⟩ := d
  change find? ⟨insertEntry key a entries⟩ k = _
  induction entries with
  | nil => simp [insertEntry, find_cons, Ne.symm h]
  | cons e entries ih =>
    unfold insertEntry
    split
    · rw [find_cons, if_neg (Ne.symm h)]
    · split
      · rename_i he
        rw [find_cons, find_cons, if_neg (Ne.symm h), if_neg fun hek => h (hek.symm.trans he.symm)]
      · rw [find_cons, find_cons, ih]

theorem find_insert (d : Directory κ α) (k key : κ) (a : α) :
    (d.insert key a).find? k = if k = key then some a else d.find? k := by
  split
  · rename_i h
    rw [h, find_insert_self]
  · exact find_insert_ne d ‹_› a

/-- What is put under a key is left out with it. -/
theorem insert_without (d : Directory κ α) {keys : List κ} (h : key ∈ keys) (a : α) :
    (d.insert key a).without keys = d.without keys := by
  obtain ⟨entries⟩ := d
  refine congrArg Directory.mk ?_
  change (insertEntry key a entries).filter (·.1 ∉ keys) = entries.filter (·.1 ∉ keys)
  induction entries with
  | nil => simp [insertEntry, h]
  | cons e entries ih =>
    unfold insertEntry
    split
    · simp [List.filter_cons, h]
    · split
      · rename_i he
        simp [h, ← he]
      · rw [List.filter_cons, ih, List.filter_cons]

/-! ## Increasing keys -/

/-- The keys increase, so that no key is there twice. -/
def Increasing (d : Directory κ α) : Prop := d.entries.Pairwise (·.1 < ·.1)

omit [DecidableEq κ] [DecidableLT κ] in
theorem increasing_empty : (empty : Directory κ α).Increasing := .nil

omit [DecidableLT κ] in
theorem Increasing.erase (h : d.Increasing) (key : κ) : (d.erase key).Increasing := List.Pairwise.filter _ h

omit [DecidableLT κ] in
theorem find_of_mem [@Std.Irrefl κ (· < ·)] (h : d.Increasing) (he : (key, a) ∈ d.entries) :
    d.find? key = some a := by
  obtain ⟨entries⟩ := d
  replace h : entries.Pairwise (·.1 < ·.1) := h
  induction h with
  | nil => cases he
  | @cons e entries hlt _ ih =>
    rw [find_cons]
    rcases List.mem_cons.mp he with rfl | he
    · rw [if_pos rfl]
    · have hne : e.1 ≠ key := by
        rintro rfl
        exact Std.Irrefl.irrefl _ (hlt (e.1, a) he)
      rw [if_neg hne, ih he]

variable [@Std.Trichotomous κ (· < ·)] [@Trans κ κ κ (· < ·) (· < ·) (· < ·)]

omit [@Std.Trichotomous κ (· < ·)] [@Trans κ κ κ (· < ·) (· < ·) (· < ·)] in
theorem mem_insertEntry {e : κ × α} {entries : List (κ × α)} (h : e ∈ insertEntry key a entries) :
    e = (key, a) ∨ e ∈ entries := by
  induction entries with
  | nil => exact .inl (List.mem_singleton.mp h)
  | cons b entries ih =>
    unfold insertEntry at h
    split at h
    · exact (List.mem_cons.mp h).imp_right id
    · split at h
      · exact (List.mem_cons.mp h).imp_right (List.mem_cons_of_mem _)
      · rcases List.mem_cons.mp h with rfl | h
        · exact .inr List.mem_cons_self
        · exact (ih h).imp_right (List.mem_cons_of_mem _)

theorem Increasing.insert (h : d.Increasing) (key : κ) (a : α) : (d.insert key a).Increasing := by
  obtain ⟨entries⟩ := d
  replace h : entries.Pairwise (·.1 < ·.1) := h
  change (insertEntry key a entries).Pairwise (·.1 < ·.1)
  induction h with
  | nil => exact List.pairwise_singleton _ _
  | @cons e entries hlt hrest ih =>
    unfold insertEntry
    split
    · rename_i hkey
      refine .cons (fun b hb => ?_) (.cons hlt hrest)
      rcases List.mem_cons.mp hb with rfl | hb
      · exact hkey
      · exact Trans.trans hkey (hlt b hb)
    · split
      · rename_i hkey
        subst hkey
        exact .cons hlt hrest
      · rename_i hnot hne
        refine .cons (fun b hb => ?_) ih
        rcases mem_insertEntry hb with rfl | hb
        · exact Classical.byContradiction fun hge => hne (Std.Trichotomous.trichotomous _ _ hnot hge)
        · exact hlt b hb

end Ordered

end HostScript.Directory
