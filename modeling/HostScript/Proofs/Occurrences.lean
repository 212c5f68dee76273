import HostScript.Proofs.Payloads
import HostScript.Proofs.Substrings
/-!
# Occurrences of a text

`findstr`, `strlen` and `substr` count in bytes. The first of them returns the lowest position where a text occurs, and
the other two take it out there whole: an occurrence starts and ends between characters, since the bytes of a text
never start in the middle of one.
-/

set_option autoImplicit false

namespace HostScript

open HostScript.Text

namespace Text

/-! ## Searching bytes -/

section Bytes

variable {needle hay : List UInt8} {i : Nat}

/-- Whether bytes occur behind `i` others. -/
def OccursAt (needle hay : List UInt8) (i : Nat) : Prop :=
  ∃ before after, hay = before ++ needle ++ after ∧ before.length = i

theorem occursAt_zero : OccursAt needle hay 0 ↔ needle.isPrefixOf hay = true := by
  rw [List.isPrefixOf_iff_prefix]
  constructor
  · rintro ⟨before, after, rfl, h⟩
    rw [List.length_eq_zero_iff.mp h]
    exact ⟨after, rfl⟩
  · rintro ⟨after, rfl⟩
    exact ⟨[], after, rfl, rfl⟩

theorem occursAt_succ (b : UInt8) : OccursAt needle (b :: hay) (i + 1) ↔ OccursAt needle hay i := by
  constructor
  · rintro ⟨before, after, h, hi⟩
    obtain ⟨x, before, rfl⟩ := List.exists_cons_of_length_eq_add_one hi
    exact ⟨before, after, (List.cons.inj h).2, Nat.succ.inj hi⟩
  · rintro ⟨before, after, rfl, hi⟩
    exact ⟨b :: before, after, rfl, congrArg (· + 1) hi⟩

theorem OccursAt.length_le (h : OccursAt needle hay i) : i + needle.length ≤ hay.length := by
  obtain ⟨before, after, rfl, rfl⟩ := h
  rw [List.length_append, List.length_append]
  exact Nat.le_add_right _ _

/-- At the end of the text only nothing is found. -/
theorem findBytes_nil : findBytes needle [] = if needle.isPrefixOf [] then some 0 else none := by cases needle <;> rfl

/-- What is found is the first occurrence. -/
theorem findBytes_eq_some (h : findBytes needle hay = some i) :
    OccursAt needle hay i ∧ ∀ j < i, ¬OccursAt needle hay j := by
  induction hay generalizing i with
  | nil =>
    rw [findBytes_nil] at h
    split at h
    · rename_i hprefix
      cases h
      exact ⟨occursAt_zero.mpr hprefix, fun j hj => absurd hj (Nat.not_lt_zero j)⟩
    · cases h
  | cons b hay ih =>
    rw [findBytes] at h
    split at h
    · rename_i hprefix
      cases h
      exact ⟨occursAt_zero.mpr hprefix, fun j hj => absurd hj (Nat.not_lt_zero j)⟩
    · rename_i hprefix
      obtain ⟨i, hi, rfl⟩ := Option.map_eq_some_iff.mp h
      obtain ⟨hoccurs, hfirst⟩ := ih hi
      refine ⟨(occursAt_succ b).mpr hoccurs, fun j hj => ?_⟩
      cases j with
      | zero => exact mt occursAt_zero.mp hprefix
      | succ j => exact mt (occursAt_succ b).mp (hfirst j (Nat.lt_of_succ_lt_succ hj))

/-- If nothing is found there is no occurrence. -/
theorem findBytes_eq_none (h : findBytes needle hay = none) (i : Nat) : ¬OccursAt needle hay i := by
  induction hay generalizing i with
  | nil =>
    rw [findBytes_nil] at h
    split at h
    · cases h
    · rename_i hprefix
      cases i with
      | zero => exact mt occursAt_zero.mp hprefix
      | succ i => exact fun hoccurs => absurd hoccurs.length_le (by rw [List.length_nil]; omega)
  | cons b hay ih =>
    rw [findBytes] at h
    split at h
    · cases h
    · rename_i hprefix
      cases i with
      | zero => exact mt occursAt_zero.mp hprefix
      | succ i => exact mt (occursAt_succ b).mp (ih (Option.map_eq_none_iff.mp h) i)

end Bytes

/-! ## Occurrences between characters -/

section Characters

variable {hay needle : String} {c : Char} {lead : UInt8} {tail : List UInt8} {i : Nat}

/-- No character starts with a byte that continues one. -/
theorem isContinuation_lead (h : String.utf8EncodeChar c = lead :: tail) : isContinuation lead = false := by
  obtain ⟨lead', tail', he, hsize, hread⟩ := leading_alone c
  obtain ⟨rfl, rfl⟩ := List.cons.inj (he.symm.trans h)
  refine Bool.eq_false_iff.mpr fun hcontinues => ?_
  rw [leading_continuation hcontinues] at hread
  obtain ⟨rfl, hlength⟩ := Prod.mk.inj hread
  rw [← hlength] at hsize
  exact absurd hsize (by decide)

/-- All other bytes of a character continue it. -/
theorem isContinuation_getElem {j : Nat} (h0 : 0 < j) (hj : j < (String.utf8EncodeChar c).length) :
    isContinuation (String.utf8EncodeChar c)[j] = true := by
  obtain ⟨lead, tail, he, -, hread⟩ := leading_alone c
  obtain ⟨j, rfl⟩ := Nat.exists_eq_add_one_of_ne_zero (Nat.pos_iff_ne_zero.mp h0)
  refine isContinuation_of_leading (congrArg Prod.snd hread) ?_
  simp [he]

/-- An occurrence of some characters starts between characters. -/
theorem OccursAt.boundary (hne : needle ≠ "") (h : OccursAt (utf8 needle) (utf8 hay) i) : Boundary hay i := by
  obtain ⟨c, cs, hcs⟩ := List.exists_cons_of_ne_nil (mt String.toList_eq_nil_iff.mp hne)
  by_contra hinside
  have hi : i ≤ (bytes hay.toList).length := utf8_eq_bytes hay ▸ Nat.le_of_add_right_le h.length_le
  obtain ⟨before, d, after, j, hhay, hj, h0, hlt⟩ :=
    exists_inside hi fun before after hs hsize => hinside ⟨before, after, hs, hsize⟩
  -- the byte there would start a character of the one text and continue one of the other
  obtain ⟨front, back, hfront, rfl⟩ := h
  obtain ⟨lead, tail, he, -, -⟩ := leading_alone c
  rw [← String.length_utf8EncodeChar] at hlt
  have hlead : (utf8 hay)[front.length]? = some lead := by
    rw [hfront, utf8_eq_bytes, hcs, bytes_cons, he]
    simp
  have hcontinues : (utf8 hay)[front.length]? = some (String.utf8EncodeChar d)[j] := by
    rw [utf8_eq_bytes, hhay, bytes_append, bytes_cons, ← hj, List.getElem?_append_right (Nat.le_add_right _ _),
      Nat.add_sub_cancel_left, List.getElem?_append_left hlt, List.getElem?_eq_getElem hlt]
  have hfalse := isContinuation_lead he
  rw [Option.some.inj (hlead.symm.trans hcontinues), isContinuation_getElem h0 hlt] at hfalse
  cases hfalse

end Characters

end Text

namespace Builtin

variable {h n : String}

/-! ## Taking out what was found -/

/-- Sizes and places in a text within the limit are integers. -/
theorem toInt_ofNat_size {i : Nat} (hi : i ≤ Value.payloadLimit) : (Int64.ofNat i).toInt = i :=
  Int64.toInt_ofNat_of_lt (Nat.lt_of_le_of_lt hi (by decide))

/-- As many bytes as a text has, from where it occurs, are the text. -/
theorem substr_occurrence {i : Nat} (hh : h.utf8ByteSize ≤ Value.payloadLimit)
    (hoccurs : OccursAt (utf8 n) (utf8 h) i) :
    substr h (Int64.ofNat i) (Int64.ofNat n.utf8ByteSize) = n := by
  have hle : i + n.utf8ByteSize ≤ h.utf8ByteSize := hoccurs.length_le
  have hstart := toInt_ofNat_size (i := i) (by omega)
  have hsize := toInt_ofNat_size (i := n.utf8ByteSize) (by omega)
  have hin : ¬StartsOutside h (Int64.ofNat i) := by
    unfold StartsOutside
    rw [Int64.lt_iff_toInt_lt, hstart, Int64.toInt_zero]
    omega
  have hend : substrEnd h (Int64.ofNat i) (Int64.ofNat n.utf8ByteSize) = i + n.utf8ByteSize := by
    have hpos : ¬Int64.ofNat n.utf8ByteSize < 0 := by
      rw [Int64.lt_iff_toInt_lt, hsize, Int64.toInt_zero]
      omega
    rw [substrEnd, if_neg hpos, hstart, hsize]
    omega
  obtain ⟨before, after, hbytes, rfl⟩ := hoccurs
  have htake : ((utf8 h).drop before.length).take n.utf8ByteSize = utf8 n := by
    rw [hbytes, List.append_assoc, List.drop_left]
    exact List.take_left
  rw [substr_inside hin, hend, hstart, Int.toNat_natCast, Nat.add_sub_cancel_left, ← utf8_eq_bytes, htake, decode_utf8]

/-- What `findstr` returns, by what is found among the bytes. -/
theorem call_findstr (h n : String) :
    call .findstr [.str h, .str n] = .int (((findBytes (utf8 n) (utf8 h)).map Int64.ofNat).getD (-1)) := by
  change Value.int (findstr h n) = _
  unfold findstr
  cases findBytes (utf8 n) (utf8 h) <;> rfl

/-- **Searching and cutting out agree**: for all texts within the limit of values, `findstr` returns a position from
which `substr` takes out what was looked for, with the length that `strlen` tells of it, and before which it does not
occur; this position lies between characters. If there is none `findstr` returns minus one, and then what was looked
for occurs nowhere. Positions and lengths are counted in bytes. -/
theorem findstr_first (hh : (Value.str h).WithinLimit) (hn : (Value.str n).WithinLimit) :
    ∃ i : Int64, call .findstr [.str h, .str n] = .int i ∧
      (0 ≤ i →
        call .substr [.str h, .int i, call .strlen [.str n]] = .str n ∧
        OccursAt (utf8 n) (utf8 h) i.toInt.toNat ∧ Boundary h i.toInt.toNat ∧
        ∀ j < i.toInt.toNat, ¬OccursAt (utf8 n) (utf8 h) j) ∧
      (i < 0 → i = -1 ∧ ∀ j, ¬OccursAt (utf8 n) (utf8 h) j) := by
  refine ⟨_, call_findstr h n, ?_⟩
  cases hfind : findBytes (utf8 n) (utf8 h) with
  | none => exact ⟨fun hpos => absurd hpos (by decide), fun _ => ⟨rfl, findBytes_eq_none hfind⟩⟩
  | some i =>
    obtain ⟨hoccurs, hfirst⟩ := findBytes_eq_some hfind
    have hle : i + n.utf8ByteSize ≤ h.utf8ByteSize := hoccurs.length_le
    have hi := toInt_ofNat_size (i := i) (Nat.le_trans (Nat.le_of_add_right_le hle) hh)
    have hboundary : Boundary h i := by
      by_cases hne : n = ""
      · -- the empty text is found at the start
        subst hne
        have hstart : OccursAt (utf8 "") (utf8 h) 0 := ⟨[], utf8 h, rfl, rfl⟩
        obtain rfl : i = 0 := Nat.eq_zero_of_not_pos fun hpos => hfirst 0 hpos hstart
        exact ⟨[], h.toList, rfl, rfl⟩
      · exact hoccurs.boundary hne
    rw [Option.map_some, Option.getD_some, hi, Int.toNat_natCast]
    refine ⟨fun _ => ⟨?_, hoccurs, hboundary, hfirst⟩, fun hneg => ?_⟩
    · change call .substr [.str h, .int (Int64.ofNat i), .int (Int64.ofNat n.utf8ByteSize)] = .str n
      rw [call_substr, substr_occurrence hh hoccurs, fit_of_le hn]
    · rw [Int64.lt_iff_toInt_lt, hi, Int64.toInt_zero] at hneg
      omega

/-- Of partial matches that overlap, the whole one is found, behind a character of two bytes. -/
theorem overlapping_match_found :
    call .findstr [.str "éaab", .str "ab"] = .int 3 ∧
      call .substr [.str "éaab", .int 3, call .strlen [.str "ab"]] = .str "ab" := by
  have hh : (Value.str "éaab").WithinLimit := by unfold Value.WithinLimit; decide
  have hn : (Value.str "ab").WithinLimit := by unfold Value.WithinLimit; decide
  have hfind : call .findstr [.str "éaab", .str "ab"] = .int 3 :=
    congrArg Value.int (by decide +kernel : findstr "éaab" "ab" = 3)
  obtain ⟨i, hi, hfound, -⟩ := findstr_first hh hn
  obtain rfl : 3 = i := Value.int.inj (hfind.symm.trans hi)
  exact ⟨hfind, (hfound (by decide)).1⟩

end Builtin

end HostScript
