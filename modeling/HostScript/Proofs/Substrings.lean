import HostScript.Builtin
import HostScript.Proofs.Fields
/-!
# Parts of a text

`substr` counts in bytes and repairs the characters it cuts, each with a replacement character of three bytes. What
it returns is therefore a part of the text, of no more bytes than were asked for, if both ends of the cut lie between
characters. Inside of a character it is not: there the replacement character comes in, which the text need not have,
and which may take more bytes than were there.
-/

set_option autoImplicit false

namespace HostScript

open HostScript.Text

namespace Text

/-! ## Bytes of a cut character -/

section Cut

variable {lead b : UInt8} {tail : List UInt8} {c : Char} {i : Nat}

theorem isContinuation_of_isSecond (h : isSecond lead b = true) : isContinuation b = true := by
  simp only [isSecond, isContinuation, UInt8.le_iff_toNat_le, UInt8.reduceToNat] at h ⊢
  grind

/-- A byte that continues a character starts none. -/
theorem leading_continuation (hb : isContinuation b = true) (rest : List UInt8) :
    leading b rest = (replacement, 0) := by
  simp only [isContinuation, Bool.and_eq_true, decide_eq_true_iff, UInt8.le_iff_toNat_le, UInt8.reduceToNat] at hb
  have h1 : ¬b < 0x80 := by simp [UInt8.lt_iff_toNat_lt]; omega
  have h2 : (decide (b < 0xC2) || decide (0xF4 < b)) = true := by simp [UInt8.lt_iff_toNat_lt]; omega
  unfold leading
  rw [if_neg h1, if_pos h2]

/-- A character whose bytes break off is replaced as a whole. -/
theorem leading_take (h : (leading lead tail).2 = tail.length) (hi : i < tail.length) :
    leading lead (tail.take i) = (replacement, i) := by
  match tail, i with
  | [b], 0 | [b, d], 0 | [b, d], 1 | [b, d, e], 0 | [b, d, e], 1 | [b, d, e], 2 =>
    simp only [leading, List.take] at h ⊢
    grind
  | b :: d :: e :: f :: tail, i =>
    exfalso
    simp only [leading] at h
    grind

/-- All bytes of a character but the first continue it. -/
theorem isContinuation_of_leading (h : (leading lead tail).2 = tail.length) (hb : b ∈ tail) :
    isContinuation b = true := by
  have hsecond := @isContinuation_of_isSecond lead
  match tail with
  | [b'] | [b', d] | [b', d, e] =>
    simp only [leading] at h
    grind
  | b' :: d :: e :: f :: tail =>
    exfalso
    simp only [leading] at h
    grind

/-- A character by itself. -/
theorem leading_alone (c : Char) : ∃ lead tail, String.utf8EncodeChar c = lead :: tail ∧
    c.utf8Size = tail.length + 1 ∧ leading lead tail = (c, tail.length) := by
  obtain ⟨lead, tail, he, hl⟩ := leading_encode c []
  rw [List.append_nil] at hl
  exact ⟨lead, tail, he, by rw [← String.length_utf8EncodeChar, he, List.length_cons], hl⟩

/-- The bytes of a character up to some place inside of it read as the replacement character. -/
theorem decodeFrom_take (h0 : 0 < i) (hi : i < c.utf8Size) :
    decodeFrom 0 ((String.utf8EncodeChar c).take i) = [replacement] := by
  obtain ⟨lead, tail, he, hlen, hl⟩ := leading_alone c
  obtain ⟨i, rfl⟩ : ∃ k, i = k + 1 := ⟨i - 1, by omega⟩
  have htake : (tail.take i).length = i := List.length_take_of_le (by omega)
  rw [he, List.take_succ_cons, decodeFrom, leading_take (by rw [hl]) (by omega)]
  refine congrArg (replacement :: ·) ?_
  calc decodeFrom i (tail.take i) = decodeFrom (tail.take i).length (tail.take i ++ []) := by
        rw [htake, List.append_nil]
    _ = [] := decodeFrom_skip _ _

/-- What starts inside of a character reads as the replacement character first. -/
theorem decodeFrom_drop (rest : List UInt8) {m : Nat} (h0 : 0 < i) (hi : i < c.utf8Size) (hm : 0 < m) :
    ∃ cs, decodeFrom 0 (((String.utf8EncodeChar c).drop i ++ rest).take m) = replacement :: cs := by
  obtain ⟨lead, tail, he, hlen, hl⟩ := leading_alone c
  obtain ⟨i, rfl⟩ : ∃ k, i = k + 1 := ⟨i - 1, by omega⟩
  obtain ⟨m, rfl⟩ : ∃ k, m = k + 1 := ⟨m - 1, by omega⟩
  have hi : i < tail.length := by omega
  have hb := isContinuation_of_leading (by rw [hl]) (List.getElem_mem hi)
  rw [he, List.drop_succ_cons, List.drop_eq_getElem_cons hi, List.cons_append, List.take_succ_cons, decodeFrom,
    leading_continuation hb]
  exact ⟨_, rfl⟩

end Cut

/-! ## Places in a text -/

/-- Whether the place behind `i` bytes of a text lies between characters. -/
def Boundary (s : String) (i : Nat) : Prop :=
  ∃ before after, s.toList = before ++ after ∧ (bytes before).length = i

/-- Every other place lies inside of a character. -/
theorem exists_inside {cs : List Char} {i : Nat} (hi : i ≤ (bytes cs).length)
    (h : ∀ before after, cs = before ++ after → (bytes before).length ≠ i) :
    ∃ before c after j, cs = before ++ c :: after ∧ (bytes before).length + j = i ∧ 0 < j ∧ j < c.utf8Size := by
  induction cs generalizing i with
  | nil => exact absurd (Nat.le_zero.mp hi).symm (h [] [] rfl)
  | cons c cs ih =>
    have h0 : 0 ≠ i := h [] (c :: cs) rfl
    rw [bytes_cons, List.length_append, String.length_utf8EncodeChar] at hi
    by_cases hc : i < c.utf8Size
    · exact ⟨[], c, cs, i, rfl, Nat.zero_add i, by omega, hc⟩
    · obtain ⟨before, d, after, j, hcs, hj, hpos, hlt⟩ := ih (i := i - c.utf8Size) (by omega) fun before after hcs he =>
        h (c :: before) after (congrArg (c :: ·) hcs) (by
          rw [bytes_cons, List.length_append, String.length_utf8EncodeChar]
          omega)
      refine ⟨c :: before, d, after, j, congrArg (c :: ·) hcs, ?_, hpos, hlt⟩
      rw [bytes_cons, List.length_append, String.length_utf8EncodeChar]
      omega

/-- The places behind some characters are those of what follows them. -/
theorem boundary_add_iff {s : String} {before rest : List Char} (h : s.toList = before ++ rest) (i : Nat) :
    Boundary s ((bytes before).length + i) ↔ ∃ cs after, rest = cs ++ after ∧ (bytes cs).length = i := by
  constructor
  · rintro ⟨before', after, h', hi⟩
    rcases List.append_eq_append_iff.mp (h.symm.trans h') with ⟨mid, rfl, rfl⟩ | ⟨mid, rfl, rfl⟩
    · rw [bytes_append, List.length_append] at hi
      exact ⟨mid, after, rfl, by omega⟩
    · rw [bytes_append, List.length_append] at hi
      have := length_le_bytes mid
      exact ⟨[], rest, rfl, by rw [bytes_nil, List.length_nil]; omega⟩
  · rintro ⟨cs, after, rfl, rfl⟩
    exact ⟨before ++ cs, after, by rw [h, List.append_assoc], by rw [bytes_append, List.length_append]⟩

/-- No place between characters is inside of one. -/
theorem le_of_lt_inside {before after before' after' : List Char} {c : Char}
    (h : before ++ c :: after = before' ++ after')
    (hlt : (bytes before').length < (bytes before).length + c.utf8Size) :
    (bytes before').length ≤ (bytes before).length := by
  rcases List.append_eq_append_iff.mp h with ⟨mid, rfl, hmid⟩ | ⟨mid, rfl, hmid⟩
  · match mid, hmid with
    | [], _ => rw [List.append_nil]
    | _ :: mid, hmid =>
      obtain ⟨rfl, -⟩ := List.cons.inj hmid
      rw [bytes_append, bytes_cons, List.length_append, List.length_append, String.length_utf8EncodeChar] at hlt
      omega
  · rw [bytes_append, List.length_append]
    omega

/-- The first character is kept if it fits. -/
theorem mem_fit_cons {limit : Nat} {c : Char} (hc : c.utf8Size ≤ limit) (cs : List Char) :
    c ∈ (fit limit (String.ofList (c :: cs))).toList := by
  unfold fit
  split
  · rw [String.toList_ofList]
    exact List.mem_cons_self
  · rw [String.toList_ofList, String.toList_ofList, fitChars, if_pos hc]
    exact List.mem_cons_self

end Text

namespace Builtin

variable {s t : String} {p n : Int64}

/-! ## What is cut out -/

/-- The byte that a part of a text ends before, by where it starts and how many bytes are asked for. -/
def substrEnd (s : String) (p n : Int64) : Nat :=
  if n < 0 then s.utf8ByteSize else min s.utf8ByteSize (p.toInt.toNat + n.toInt.toNat)

/-- Whether a part of a text would start outside of it. -/
def StartsOutside (s : String) (p : Int64) : Prop := p < 0 ∨ s.utf8ByteSize < p.toInt.toNat

theorem substr_outside (h : StartsOutside s p) : substr s p n = "" := by
  unfold substr
  refine if_pos (Bool.or_eq_true_iff.mpr (h.imp decide_eq_true fun h => decide_eq_true ?_))
  rwa [utf8_eq_bytes, ← utf8ByteSize_eq]

theorem substr_inside (h : ¬StartsOutside s p) :
    substr s p n =
      decode (((bytes s.toList).drop p.toInt.toNat).take (substrEnd s p n - p.toInt.toNat)) := by
  obtain ⟨hp, hs⟩ := not_or.mp h
  rw [utf8ByteSize_eq] at hs
  unfold substr substrEnd
  rw [utf8_eq_bytes, utf8ByteSize_eq, if_neg (by simpa [hp] using hs)]
  split
  · rw [List.take_of_length_le (by rw [List.length_drop])]
  · refine congrArg decode (List.take_eq_take_iff.mpr ?_)
    rw [List.length_drop]
    omega

/-- A part that starts between characters is read from there on. -/
theorem substr_boundary {before rest : List Char} (hs : s.toList = before ++ rest)
    (hb : (bytes before).length = p.toInt.toNat) (h : ¬StartsOutside s p) :
    substr s p n = decode ((bytes rest).take (substrEnd s p n - p.toInt.toNat)) := by
  rw [substr_inside h, hs, bytes_append, ← hb, List.drop_left]

/-- Whether a part of a text has no character that was cut: none is taken at all, or the part starts and ends between
characters. One that is cut at the end makes no difference if a value has no room left for what replaces it. -/
def CutsWhole (s : String) (p n : Int64) : Prop :=
  StartsOutside s p ∨ substrEnd s p n ≤ p.toInt.toNat ∨
    Boundary s p.toInt.toNat ∧ (Boundary s (substrEnd s p n) ∨
      ∃ i ≤ substrEnd s p n, Boundary s i ∧ p.toInt.toNat + Value.payloadLimit < i + replacement.utf8Size)

/-- Whether `t` is a part of `s`, and one of at most `n` bytes unless `n` is negative. -/
structure IsPiece (s : String) (n : Int64) (t : String) : Prop where
  contiguous : t.toList <:+: s.toList
  not_longer : t.utf8ByteSize ≤ s.utf8ByteSize
  within : 0 ≤ n → t.utf8ByteSize ≤ n.toInt.toNat

theorem isPiece_of_isPrefix {before cs after : List Char} (hs : s.toList = before ++ cs ++ after)
    (ht : t.toList <+: cs) (hn : 0 ≤ n → (bytes cs).length ≤ n.toInt.toNat) : IsPiece s n t := by
  obtain ⟨more, rfl⟩ := ht
  have hcs : t.utf8ByteSize ≤ (bytes (t.toList ++ more)).length := by
    rw [utf8ByteSize_eq, bytes_append, List.length_append]
    exact Nat.le_add_right _ _
  refine ⟨⟨before, more ++ after, ?_⟩, hcs.trans ?_, fun h => hcs.trans (hn h)⟩
  · rw [hs]
    simp only [List.append_assoc]
  · rw [utf8ByteSize_eq s, hs]
    simp only [bytes_append, List.length_append]
    omega

theorem isPiece_empty (s : String) (n : Int64) : IsPiece s n "" :=
  have hs : s.toList = [] ++ [] ++ s.toList := rfl
  isPiece_of_isPrefix hs List.nil_prefix fun _ => Nat.zero_le _

theorem call_substr (s : String) (p n : Int64) :
    call .substr [.str s, .int p, .int n] = .str (fit Value.payloadLimit (substr s p n)) := rfl

theorem substrEnd_le (s : String) (p n : Int64) : substrEnd s p n ≤ (bytes s.toList).length := by
  rw [← utf8ByteSize_eq]
  unfold substrEnd
  split
  · exact Nat.le_refl _
  · exact Nat.min_le_left _ _

/-- There are no more bytes in a part than were asked for. -/
theorem substrEnd_sub_le (s : String) (p : Int64) (h : 0 ≤ n) : substrEnd s p n - p.toInt.toNat ≤ n.toInt.toNat := by
  unfold substrEnd
  rw [if_neg (Int64.not_lt.mpr h)]
  omega

section Ends

variable {before rest : List Char} (hs : s.toList = before ++ rest) (hb : (bytes before).length = p.toInt.toNat)
  (hin : ¬StartsOutside s p)

include hs hb hin

/-- A part that starts and ends between characters is one of whole characters. -/
theorem isPiece_substr_of_boundary {cs after : List Char} (hrest : rest = cs ++ after)
    (hend : (bytes cs).length = substrEnd s p n - p.toInt.toNat) :
    IsPiece s n (fit Value.payloadLimit (substr s p n)) := by
  subst hrest
  have hread : substr s p n = String.ofList cs := by
    rw [substr_boundary hs hb hin, ← hend, bytes_append, List.take_left, decode_bytes]
  refine isPiece_of_isPrefix (hs.trans (List.append_assoc ..).symm) ?_ fun h => hend.trans_le (substrEnd_sub_le s p h)
  rw [hread]
  exact (isPrefix_fit _ _).trans (String.toList_ofList ▸ List.prefix_rfl)

/-- What is read of a part that ends inside of a character. -/
theorem substr_of_inside {cs after : List Char} {c : Char} {j : Nat} (hrest : rest = cs ++ c :: after)
    (hend : (bytes cs).length + j = substrEnd s p n - p.toInt.toNat) (h0 : 0 < j) (hj : j < c.utf8Size) :
    substr s p n = String.ofList (cs ++ [replacement]) := by
  subst hrest
  have htake : (String.utf8EncodeChar c ++ bytes after).take j = (String.utf8EncodeChar c).take j :=
    List.take_append_of_le_length (by rw [String.length_utf8EncodeChar]; exact Nat.le_of_lt hj)
  rw [substr_boundary hs hb hin, ← hend, bytes_append, List.take_length_add_append, bytes_cons, htake, decode,
    decodeFrom_bytes_append, decodeFrom_take h0 hj]

end Ends

/-- What replaces a cut character is in the result, or has no room there. -/
theorem fit_replaced (limit : Nat) (cs : List Char) :
    (bytes cs).length + replacement.utf8Size ≤ limit ∧
        replacement ∈ (fit limit (String.ofList (cs ++ [replacement]))).toList ∨
      limit < (bytes cs).length + replacement.utf8Size ∧
        (fit limit (String.ofList (cs ++ [replacement]))).toList <+: cs := by
  have hsize : (String.ofList (cs ++ [replacement])).utf8ByteSize = (bytes cs).length + replacement.utf8Size := by
    rw [utf8ByteSize_eq, String.toList_ofList, bytes_append, List.length_append, bytes_cons, bytes_nil,
      List.append_nil, String.length_utf8EncodeChar]
  by_cases hle : (bytes cs).length + replacement.utf8Size ≤ limit
  · refine .inl ⟨hle, ?_⟩
    rw [fit_of_le (hsize.trans_le hle), String.toList_ofList]
    exact List.mem_append_right _ List.mem_cons_self
  · refine .inr ⟨Nat.lt_of_not_le hle, ?_⟩
    have hprefix := isPrefix_fit limit (String.ofList (cs ++ [replacement]))
    rw [String.toList_ofList] at hprefix
    refine (List.prefix_concat_iff.mp hprefix).resolve_left fun h => hle ?_
    have hfit := utf8ByteSize_fit_le limit (String.ofList (cs ++ [replacement]))
    rwa [String.toList_injective (h.trans String.toList_ofList.symm), hsize] at hfit

/-- A part that starts inside of a character has a replacement character. -/
theorem replacement_mem_of_start_inside (hin : ¬StartsOutside s p) (hlt : p.toInt.toNat < substrEnd s p n)
    (hb : ¬Boundary s p.toInt.toNat) : replacement ∈ (fit Value.payloadLimit (substr s p n)).toList := by
  have hle := (Nat.le_of_lt hlt).trans (substrEnd_le s p n)
  obtain ⟨before, c, after, j, hs, hj, h0, hjlt⟩ :=
    exists_inside hle fun before after hs hi => hb ⟨before, after, hs, hi⟩
  obtain ⟨cs, hcs⟩ := decodeFrom_drop (bytes after) h0 hjlt (Nat.sub_pos_of_lt hlt)
  have hdrop : (bytes s.toList).drop p.toInt.toNat = (String.utf8EncodeChar c).drop j ++ bytes after := by
    rw [hs, bytes_append, ← hj, List.drop_length_add_append, bytes_cons,
      List.drop_append_of_le_length (by rw [String.length_utf8EncodeChar]; exact Nat.le_of_lt hjlt)]
  rw [substr_inside hin, hdrop, decode, hcs]
  exact mem_fit_cons (by decide) cs

/-- A part that starts between characters is one of the text, or ends inside of a character and has what replaces
it. -/
theorem substr_cases (hin : ¬StartsOutside s p) (hlt : p.toInt.toNat < substrEnd s p n)
    (hb : Boundary s p.toInt.toNat) :
    CutsWhole s p n ∧ IsPiece s n (fit Value.payloadLimit (substr s p n)) ∨
      ¬CutsWhole s p n ∧ replacement ∈ (fit Value.payloadLimit (substr s p n)).toList := by
  have hstart := hb
  obtain ⟨before, rest, hs, hb⟩ := hb
  have hsum : (bytes before).length + (substrEnd s p n - p.toInt.toNat) = substrEnd s p n := by omega
  by_cases hstop : Boundary s (substrEnd s p n)
  · obtain ⟨cs, after, hrest, hend⟩ := (boundary_add_iff hs _).mp (hsum.symm ▸ hstop)
    exact .inl ⟨.inr (.inr ⟨hstart, .inl hstop⟩), isPiece_substr_of_boundary hs hb hin hrest hend⟩
  · have hle : substrEnd s p n - p.toInt.toNat ≤ (bytes rest).length := by
      have := substrEnd_le s p n
      rw [hs, bytes_append, List.length_append] at this
      omega
    obtain ⟨cs, c, after, j, hrest, hend, h0, hj⟩ := exists_inside hle fun cs after hrest hend =>
      hstop (hsum ▸ (boundary_add_iff hs _).mpr ⟨cs, after, hrest, hend⟩)
    have hlast : Boundary s (p.toInt.toNat + (bytes cs).length) :=
      hb ▸ (boundary_add_iff hs _).mpr ⟨cs, c :: after, hrest, rfl⟩
    rw [substr_of_inside hs hb hin hrest hend h0 hj]
    rcases fit_replaced Value.payloadLimit cs with ⟨hroom, hmem⟩ | ⟨hfull, hprefix⟩
    · refine .inr ⟨?_, hmem⟩
      rintro (hout | hempty | ⟨-, hstop' | ⟨i, hi, ⟨cs', after', hs', hi'⟩, hfar⟩⟩)
      · exact hin hout
      · omega
      · exact hstop hstop'
      · -- the last place between characters is the one before the character that is cut
        have hsame : (before ++ cs) ++ c :: after = cs' ++ after' := by rw [List.append_assoc, ← hrest, ← hs, hs']
        have := le_of_lt_inside hsame (by rw [bytes_append, List.length_append]; omega)
        rw [bytes_append, List.length_append] at this
        omega
    · refine .inl ⟨.inr (.inr ⟨hstart, .inr ⟨_, by omega, hlast, by omega⟩⟩), ?_⟩
      have hpiece : s.toList = before ++ cs ++ c :: after := by rw [hs, hrest, List.append_assoc]
      refine isPiece_of_isPrefix hpiece hprefix fun h => ?_
      have := substrEnd_sub_le s p h
      omega

/-- **A part of a text**: what `substr` returns, for every text, every start and every length. It is empty where the
part would start outside of the text. If no character is cut, it is a contiguous part of the text, with no more bytes
than the text has, nor than were asked for. If one is cut, a replacement character is in it, which makes it none
unless the text has such characters itself. -/
theorem substr_whole_or_replaced (s : String) (p n : Int64) :
    ∃ t, call .substr [.str s, .int p, .int n] = .str t ∧
      (p < 0 ∨ s.utf8ByteSize < p.toInt.toNat → t = "") ∧
      (CutsWhole s p n → IsPiece s n t) ∧
      (¬CutsWhole s p n → replacement ∈ t.toList ∧ (replacement ∉ s.toList → ¬IsPiece s n t)) := by
  refine ⟨_, call_substr s p n, fun hout => by rw [substr_outside hout]; rfl, ?_⟩
  by_cases hin : StartsOutside s p
  · rw [substr_outside hin]
    exact ⟨fun _ => isPiece_empty s n, fun h => absurd (.inl hin) h⟩
  by_cases hlt : substrEnd s p n ≤ p.toInt.toNat
  · rw [substr_inside hin, Nat.sub_eq_zero_of_le hlt, List.take_zero]
    exact ⟨fun _ => isPiece_empty s n, fun h => absurd (.inr (.inl hlt)) h⟩
  · have hmem : CutsWhole s p n ∧ IsPiece s n (fit Value.payloadLimit (substr s p n)) ∨
        ¬CutsWhole s p n ∧ replacement ∈ (fit Value.payloadLimit (substr s p n)).toList := by
      by_cases hb : Boundary s p.toInt.toNat
      · exact substr_cases hin (Nat.lt_of_not_le hlt) hb
      · refine .inr ⟨?_, replacement_mem_of_start_inside hin (Nat.lt_of_not_le hlt) hb⟩
        rintro (hout | hempty | ⟨hstart, -⟩)
        exacts [hin hout, hlt hempty, hb hstart]
    rcases hmem with ⟨hwhole, hpiece⟩ | ⟨hcut, hmem⟩
    · exact ⟨fun _ => hpiece, fun h => absurd hwhole h⟩
    · exact ⟨fun h => absurd h hcut, fun _ => ⟨hmem, fun hnot hpiece => hnot (hpiece.contiguous.subset hmem)⟩⟩

/-- The second byte of a character of two is none of its text. -/
theorem substr_cuts_character :
    ∃ t, call .substr [.str "é", .int 1, .int 1] = .str t ∧ ¬IsPiece "é" 1 t := by
  obtain ⟨t, ht, -, -, hcut⟩ := substr_whole_or_replaced "é" 1 1
  refine ⟨t, ht, (hcut ?_).2 (by decide)⟩
  rintro (hout | hempty | ⟨⟨before, after, hs, hi⟩, -⟩)
  · exact absurd hout (by unfold StartsOutside; decide)
  · exact absurd hempty (by decide)
  · rcases List.append_eq_cons_iff.mp (hs.symm.trans (by decide : "é".toList = ['é'])) with ⟨rfl, -⟩ | ⟨cs, rfl, hcs⟩
    · exact absurd hi (by decide)
    · rw [(List.append_eq_nil_iff.mp hcs.symm).1] at hi
      exact absurd hi (by decide)

end Builtin

end HostScript
