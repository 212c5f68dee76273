import HostScript.Text.Split
import HostScript.Proofs.EscapedText
import Mathlib.Data.List.DropRight
/-!
# Fields of a line

Fields are read back from the line that joins them if none of them has the separator, and a field that has it is
read up to it. Text that is unescaped without having been escaped gets shorter at each backslash, and at nothing
else.
-/

set_option autoImplicit false

namespace HostScript.Text

variable {sep : Char} {as bs cs : List Char}

/-! ## Separators -/

/-- The first field ends before the first separator. -/
theorem fieldsOf_eq_cons (sep : Char) (cs : List Char) :
    ∃ more, fieldsOf sep cs = cs.takeWhile (· != sep) :: more := by
  induction cs with
  | nil => exact ⟨[], rfl⟩
  | cons c cs ih =>
    obtain ⟨more, hmore⟩ := ih
    by_cases hc : c = sep
    · exact ⟨fieldsOf sep cs, by simp [fieldsOf, hc]⟩
    · exact ⟨more, by simp [fieldsOf, hc, hmore]⟩

/-- A separator divides a line into two. -/
theorem fieldsOf_append (sep : Char) (as bs : List Char) :
    fieldsOf sep (as ++ sep :: bs) = fieldsOf sep as ++ fieldsOf sep bs := by
  induction as with
  | nil => simp [fieldsOf]
  | cons a as ih =>
    obtain ⟨more, hmore⟩ := fieldsOf_eq_cons sep as
    rw [List.cons_append, fieldsOf, fieldsOf, ih, hmore]
    split <;> rfl

theorem fieldsOf_of_not_mem (h : sep ∉ cs) : fieldsOf sep cs = [cs] := by
  induction cs with
  | nil => rfl
  | cons c cs ih =>
    obtain ⟨hc, hcs⟩ := not_or.mp (mt List.mem_cons.mpr h)
    simp [fieldsOf, Ne.symm hc, ih hcs]

theorem not_mem_of_mem_fieldsOf {field : List Char} (h : field ∈ fieldsOf sep cs) : sep ∉ field := by
  induction cs generalizing field with
  | nil => simp_all [fieldsOf]
  | cons c cs ih =>
    obtain ⟨more, hmore⟩ := fieldsOf_eq_cons sep cs
    rw [hmore] at ih
    by_cases hc : c = sep
    · rw [fieldsOf, if_pos (beq_iff_eq.mpr hc), hmore] at h
      rcases List.mem_cons.mp h with rfl | h
      · exact List.not_mem_nil
      · exact ih h
    · rw [fieldsOf, if_neg (mt beq_iff_eq.mp hc), hmore] at h
      rcases List.mem_cons.mp h with rfl | h
      · exact List.not_mem_cons_of_ne_of_not_mem (Ne.symm hc) (ih List.mem_cons_self)
      · exact ih (List.mem_cons_of_mem _ h)

theorem not_mem_of_mem_fields {s field : String} (h : field ∈ fields sep s) : sep ∉ field.toList := by
  obtain ⟨cs, hcs, rfl⟩ := List.mem_map.mp h
  rw [String.toList_ofList]
  exact not_mem_of_mem_fieldsOf hcs

/-- A missing field counts as empty and has no separator, either. -/
theorem not_mem_fields_getD (sep : Char) (s : String) (i : Nat) : sep ∉ ((fields sep s).getD i "").toList := by
  rw [List.getD_eq_getElem?_getD]
  cases h : (fields sep s)[i]? with
  | none => exact List.not_mem_nil
  | some field => exact not_mem_of_mem_fields (List.mem_of_getElem? h)

theorem fields_of_not_mem {s : String} (h : sep ∉ s.toList) : fields sep s = [s] := by
  rw [fields, fieldsOf_of_not_mem h, List.map_singleton, String.ofList_toList]

theorem fieldsOf_intercalate (sep : Char) {parts : List (List Char)} (h : parts ≠ []) :
    fieldsOf sep ([sep].intercalate parts) = parts.flatMap (fieldsOf sep) := by
  induction parts with
  | nil => contradiction
  | cons part parts ih =>
    cases parts with
    | nil => simp
    | cons next parts =>
      rw [List.intercalate_cons_cons, List.append_assoc, List.singleton_append, fieldsOf_append, ih (by simp),
        List.flatMap_cons (x := part)]

theorem flatMap_fields {parts : List String} (h : ∀ part ∈ parts, sep ∉ part.toList) :
    parts.flatMap (fields sep) = parts := by
  induction parts with
  | nil => rfl
  | cons part parts ih =>
    rw [List.flatMap_cons, fields_of_not_mem (h part List.mem_cons_self),
      ih fun p hp => h p (List.mem_cons_of_mem _ hp), List.singleton_append]

/-- The first field of a part is found behind parts that are one field each. -/
theorem getD_flatMap_fields {before : List String} (h : ∀ part ∈ before, sep ∉ part.toList) (part : String)
    (after : List String) :
    ((before ++ part :: after).flatMap (fields sep)).getD before.length "" =
      String.ofList (part.toList.takeWhile (· != sep)) := by
  obtain ⟨more, hmore⟩ := fieldsOf_eq_cons sep part.toList
  rw [List.flatMap_append, flatMap_fields h, List.flatMap_cons, fields, hmore]
  simp [List.getD_eq_getElem?_getD]

/-- What stands before the first separator, and what behind it. -/
theorem cutChars_eq_some {before after : List Char} (h : cutChars sep cs = some (before, after)) :
    sep ∉ before ∧ cs = before ++ sep :: after := by
  induction cs generalizing before with
  | nil => cases h
  | cons c cs ih =>
    rw [cutChars] at h
    split at h
    · rename_i hc
      obtain ⟨rfl, rfl⟩ := Prod.mk.inj (Option.some.inj h)
      exact ⟨List.not_mem_nil, congrArg (· :: cs) (beq_iff_eq.mp hc)⟩
    · rename_i hc
      obtain ⟨⟨start, rest⟩, hrest, heq⟩ := Option.map_eq_some_iff.mp h
      obtain ⟨rfl, rfl⟩ := Prod.mk.inj heq
      obtain ⟨hnot, rfl⟩ := ih hrest
      exact ⟨List.not_mem_cons_of_ne_of_not_mem (fun heq => hc (beq_iff_eq.mpr heq.symm)) hnot, rfl⟩

theorem not_mem_of_cutChars_eq_none (h : cutChars sep cs = none) : sep ∉ cs := by
  induction cs with
  | nil => exact List.not_mem_nil
  | cons c cs ih =>
    rw [cutChars] at h
    split at h
    · cases h
    · rename_i hc
      exact List.not_mem_cons_of_ne_of_not_mem (fun heq => hc (beq_iff_eq.mpr heq.symm))
        (ih (Option.map_eq_none_iff.mp h))

/-! ## Ends of lines -/

/-- A text without the characters at its end that satisfy `p`. -/
def withoutEnd (p : Char → Bool) (s : String) : String := String.ofList (dropEndWhile p s.toList)

/-- Parts of a line, the last of them without what ends the line. -/
def endTrimmed (p : Char → Bool) : List String → List String
  | [] => []
  | [last] => [withoutEnd p last]
  | part :: next :: parts => part :: endTrimmed p (next :: parts)

theorem endTrimmed_append (p : Char → Bool) (before : List String) {rest : List String} (h : rest ≠ []) :
    endTrimmed p (before ++ rest) = before ++ endTrimmed p rest := by
  induction before with
  | nil => rfl
  | cons part before ih =>
    rw [List.cons_append, List.cons_append, ← ih]
    cases hmore : before ++ rest with
    | nil => exact absurd (List.append_eq_nil_iff.mp hmore).2 h
    | cons next more => rfl

theorem dropEndWhile_eq (p : Char → Bool) (cs : List Char) : dropEndWhile p cs = cs.rdropWhile p := rfl

/-- What ends a line ends its last part, as long as the separator stays. -/
theorem dropEndWhile_separated {p : Char → Bool} (hp : p sep = false) (as bs : List Char) :
    dropEndWhile p (as ++ sep :: bs) = as ++ sep :: dropEndWhile p bs := by
  induction bs using List.reverseRecOn with
  | nil => simp [dropEndWhile_eq, hp]
  | append_singleton bs b ih =>
    simp only [dropEndWhile_eq, ← List.cons_append, ← List.append_assoc, List.rdropWhile_concat] at ih ⊢
    split
    · exact ih
    · simp

theorem isPrefix_withoutEnd (p : Char → Bool) (s : String) : (withoutEnd p s).toList <+: s.toList := by
  rw [withoutEnd, String.toList_ofList]
  exact List.rdropWhile_prefix p _

theorem not_mem_endTrimmed {p : Char → Bool} {parts : List String} (h : ∀ part ∈ parts, sep ∉ part.toList) :
    ∀ part ∈ endTrimmed p parts, sep ∉ part.toList := by
  fun_induction endTrimmed p parts with
  | case1 => exact h
  | case2 last =>
    intro part hpart hmem
    rw [List.mem_singleton.mp hpart] at hmem
    exact h last List.mem_cons_self ((isPrefix_withoutEnd p last).subset hmem)
  | case3 first next parts ih =>
    intro part hpart
    rcases List.mem_cons.mp hpart with rfl | hpart
    · exact h _ List.mem_cons_self
    · exact ih (fun q hq => h q (List.mem_cons_of_mem _ hq)) part hpart

theorem withoutEnd_eq_self_iff {p : Char → Bool} {s : String} :
    withoutEnd p s = s ↔ ∀ c ∈ s.toList.getLast?, p c = false := by
  rw [← String.toList_inj, withoutEnd, String.toList_ofList, dropEndWhile_eq, List.rdropWhile_eq_self_iff]
  cases s.toList using List.reverseRecOn <;> simp

theorem withoutEnd_of_forall {p : Char → Bool} {s : String} (h : ∀ c ∈ s.toList, p c = false) : withoutEnd p s = s :=
  withoutEnd_eq_self_iff.mpr fun c hc => h c (List.mem_of_getLast? hc)

theorem withoutEnd_intercalate {p : Char → Bool} (hp : p ',' = false) (parts : List String) :
    withoutEnd p (",".intercalate parts) = ",".intercalate (endTrimmed p parts) := by
  refine String.toList_inj.mp ?_
  rw [withoutEnd, String.toList_ofList, String.toList_intercalate, String.toList_intercalate]
  fun_induction endTrimmed p parts with
  | case1 => rfl
  | case2 last => simp [withoutEnd]
  | case3 part next parts ih =>
    have hne : (endTrimmed p (next :: parts)).map String.toList ≠ [] := by cases parts <;> simp [endTrimmed]
    have hcomma : ",".toList = [','] := rfl
    rw [hcomma] at ih ⊢
    rw [List.map_cons, List.map_cons, List.intercalate_cons_cons, List.append_assoc, List.singleton_append,
      dropEndWhile_separated hp, ← List.map_cons, ih, List.map_cons, List.intercalate_cons_of_ne_nil hne,
      List.append_assoc, List.singleton_append]

/-- The fields of a line that joins some parts. -/
theorem fields_intercalate {parts : List String} (h : parts ≠ []) :
    fields ',' (",".intercalate parts) = parts.flatMap (fields ',') := by
  have hcomma : ",".toList = [','] := rfl
  rw [fields, String.toList_intercalate, hcomma, fieldsOf_intercalate ',' (by simpa using h), List.flatMap_map,
    List.map_flatMap]
  rfl

/-! ## Text that is unescaped -/

theorem length_unescapeFrom_le (skip : Nat) (cs : List Char) :
    (unescapeFrom skip cs).length ≤ cs.length - skip := by
  fun_induction unescapeFrom skip cs with
  | case4 letter rest _ _ c? digits _ ih =>
    have hchar : c?.toList.length ≤ 1 := by cases c? <;> simp
    simp only [List.length_append, List.length_cons]
    omega
  | _ => simp_all <;> omega

theorem unescapeChars_cons {c : Char} (hc : c ≠ '\\') (cs : List Char) :
    unescapeChars (c :: cs) = c :: unescapeChars cs := by
  rw [unescapeChars, unescapeFrom.eq_def]
  split <;> simp_all [unescapeChars]

theorem length_unescapeChars_le (cs : List Char) : (unescapeChars cs).length ≤ cs.length :=
  length_unescapeFrom_le 0 cs

/-- A backslash takes something away. -/
theorem length_unescapeChars_lt (h : '\\' ∈ cs) : (unescapeChars cs).length < cs.length := by
  induction cs with
  | nil => cases h
  | cons c cs ih =>
    by_cases hc : c = '\\'
    · subst hc
      cases cs with
      | nil => exact Nat.one_pos
      | cons letter rest =>
        have hrest := length_unescapeFrom_le 0 rest
        rw [unescapeChars, unescapeFrom]
        split
        · simp only [List.length_cons]
          omega
        · split
          · have hcode := length_unescapeFrom_le (codeAt rest).2 rest
            have hchar : (codeAt rest).1.toList.length ≤ 1 := by cases (codeAt rest).1 <;> simp
            simp only [List.length_append, List.length_cons]
            omega
          · simp only [List.length_cons]
            omega
    · have hmem : '\\' ∈ cs := by simpa [Ne.symm hc] using h
      simpa [unescapeChars_cons hc] using ih hmem

theorem unescapeChars_of_not_mem (h : '\\' ∉ cs) : unescapeChars cs = cs := by
  induction cs with
  | nil => rfl
  | cons c cs ih =>
    obtain ⟨hc, hcs⟩ := not_or.mp (mt List.mem_cons.mpr h)
    rw [unescapeChars_cons (Ne.symm hc), ih hcs]

/-- A text that stands for itself in a field that is unescaped. -/
def Verbatim (s : String) : Prop := ',' ∉ s.toList ∧ '\\' ∉ s.toList

theorem Verbatim.unescape {s : String} (h : Verbatim s) : unescape s = s := by
  rw [HostScript.Text.unescape, unescapeChars_of_not_mem h.2, String.ofList_toList]

/-- A text that is not longer than what its field is unescaped to stands for itself. -/
theorem verbatim_of_length_le {s : String}
    (h : s.toList.length ≤ (unescapeChars (s.toList.takeWhile (· != ','))).length) : Verbatim s := by
  have hunescape := length_unescapeChars_le (s.toList.takeWhile (· != ','))
  have hprefix := List.takeWhile_prefix (· != ',') (l := s.toList)
  have hall : s.toList.takeWhile (· != ',') = s.toList := hprefix.eq_of_length_le (by omega)
  rw [hall] at h
  constructor
  · intro hcomma
    simpa using List.takeWhile_eq_self_iff.mp hall ',' hcomma
  · intro hbackslash
    exact absurd (length_unescapeChars_lt hbackslash) (Nat.not_lt.mpr h)

/-! ## Text that is cut -/

theorem length_fitChars (limit : Nat) (cs : List Char) : (bytes (fitChars limit cs)).length ≤ limit := by
  fun_induction fitChars limit cs with
  | case1 => exact Nat.zero_le _
  | case2 limit c cs hle ih =>
    rw [bytes_cons, List.length_append, String.length_utf8EncodeChar]
    omega
  | case3 => exact Nat.zero_le _

/-- A text that was cut fits. -/
theorem utf8ByteSize_fit_le (limit : Nat) (s : String) : (fit limit s).utf8ByteSize ≤ limit := by
  rw [fit]
  split
  · assumption
  · rw [utf8ByteSize_eq, String.toList_ofList]
    exact length_fitChars limit _

theorem isPrefix_fitChars (limit : Nat) (cs : List Char) : fitChars limit cs <+: cs := by
  fun_induction fitChars limit cs with
  | case1 => exact List.prefix_rfl
  | case2 limit c cs _ ih => exact (List.prefix_cons_inj c).mpr ih
  | case3 => exact List.nil_prefix

theorem isPrefix_fit (limit : Nat) (s : String) : (fit limit s).toList <+: s.toList := by
  rw [fit]
  split
  · exact List.prefix_rfl
  · rw [String.toList_ofList]
    exact isPrefix_fitChars limit _

end HostScript.Text
