import HostScript.Text.Escape
import HostScript.Proofs.Utf8
/-!
# Text that is written to be read back

Escaped text stands for the text it was escaped from, whatever the delimiter is, as long as the
delimiter has a code of two digits. Blobs come back from their hexadecimal digits, and from the digits
up to any place as far as these make whole bytes. A text of ASCII characters takes a byte for each of
them, so that a limit on its size is one on its length.
-/

set_option autoImplicit false

namespace HostScript.Text

/-! ## Hexadecimal digits -/

theorem digitValue_hexDigit {n : Nat} (h : n < 16) : digitValue? 16 (hexDigit n) = some n :=
  (by decide : ∀ n < 16, digitValue? 16 (hexDigit n) = some n) n h

theorem hexDigit_ascii {n : Nat} (h : n < 16) : (hexDigit n).toNat < 128 :=
  (by decide : ∀ n < 16, (hexDigit n).toNat < 128) n h

/-- The digits of a blob. -/
def hexChars (blob : List UInt8) : List Char := blob.flatMap fun b => hexPair b.toNat

theorem hexChars_cons (b : UInt8) (blob : List UInt8) :
    hexChars (b :: blob) = hexDigit (b.toNat / 16) :: hexDigit (b.toNat % 16) :: hexChars blob := rfl

theorem toList_toHex (blob : List UInt8) : (toHex blob).toList = hexChars blob := String.toList_ofList

theorem hexChars_ascii {blob : List UInt8} {c : Char} (hc : c ∈ hexChars blob) : c.toNat < 128 := by
  obtain ⟨b, -, hc⟩ := List.mem_flatMap.mp hc
  have hb := b.toNat_lt
  simp only [hexPair, List.mem_cons, List.not_mem_nil, or_false] at hc
  rcases hc with rfl | rfl
  · exact hexDigit_ascii (by omega)
  · exact hexDigit_ascii (by omega)

/-- A byte is read from its two digits. -/
theorem fromHexChars_pair (b : UInt8) (rest : List Char) :
    fromHexChars (hexDigit (b.toNat / 16) :: hexDigit (b.toNat % 16) :: rest) =
      (fromHexChars rest).map (b :: ·) := by
  have hb := b.toNat_lt
  have hsum : UInt8.ofNat (b.toNat / 16 * 16 + b.toNat % 16) = b := by
    rw [show b.toNat / 16 * 16 + b.toNat % 16 = b.toNat by omega, UInt8.ofNat_toNat]
  rw [fromHexChars, digitValue_hexDigit (by omega), digitValue_hexDigit (by omega)]
  cases fromHexChars rest with
  | none => rfl
  | some blob => exact congrArg (fun b => some (b :: blob)) hsum

/-- Of the digits up to some place, those that make whole bytes are read. -/
theorem fromHexChars_take (n : Nat) (blob : List UInt8) :
    fromHexChars ((hexChars blob).take n) = some (blob.take (n / 2)) := by
  induction blob generalizing n with
  | nil => simp [hexChars, fromHexChars]
  | cons b blob ih =>
    match n with
    | 0 | 1 => rfl
    | n + 2 =>
      rw [hexChars_cons, List.take_succ_cons, List.take_succ_cons, fromHexChars_pair, ih n,
        Nat.add_div_right n Nat.two_pos]
      rfl

/-! ## Escapes -/

theorem escapedChar_of_letter {c letter : Char} (h : escapeLetter? c = some letter) :
    escapedChar? letter = some c := by
  obtain ⟨pair, hpair, rfl⟩ := Option.map_eq_some_iff.mp h
  have hc : pair.1 = c := by simpa using List.find?_some hpair
  rw [← hc]
  exact (by decide : ∀ p ∈ escapes, escapedChar? p.2 = some p.1) pair (List.mem_of_find?_eq_some hpair)

theorem codeAt_hexPair {n : Nat} (h : n < 256) (rest : List Char) :
    codeAt (hexPair n ++ rest) = (some (Char.ofNat n), 2) := by
  have hsum : n / 16 * 16 + n % 16 = n := by omega
  simp [hexPair, codeAt, digitValue_hexDigit (n := n / 16) (by omega), digitValue_hexDigit (n := n % 16) (by omega),
    hsum]

theorem unescapeFrom_code {c : Char} (h : c.toNat < 256) (rest : List Char) :
    unescapeFrom 0 (escapeByCode c ++ rest) = c :: unescapeFrom 0 rest := by
  rw [escapeByCode, if_pos h]
  simp only [List.cons_append]
  rw [unescapeFrom, show escapedChar? 'x' = none from rfl]
  simp only [beq_self_eq_true, Bool.true_or, if_true, codeAt_hexPair h, Char.ofNat_toNat]
  rfl

/-- An escaped character is read back, whatever follows it. -/
theorem unescapeFrom_escapeChar {delimiter : Option Char} (hd : ∀ d ∈ delimiter, d.toNat < 256) (c : Char)
    (rest : List Char) : unescapeFrom 0 (escapeChar delimiter c ++ rest) = c :: unescapeFrom 0 rest := by
  rw [escapeChar]
  split
  · rename_i h
    exact unescapeFrom_code (hd c (beq_iff_eq.mp h).symm) rest
  · cases hl : escapeLetter? c with
    | some letter =>
      simp only [List.cons_append, List.nil_append]
      rw [unescapeFrom, escapedChar_of_letter hl]
    | none =>
      dsimp only
      split
      · exact unescapeFrom_code (by omega) rest
      · have hc : c ≠ '\\' := by
          rintro rfl
          simp [escapeLetter?, escapes] at hl
        rw [List.singleton_append, unescapeFrom.eq_def]
        split <;> simp_all

theorem unescapeChars_flatMap {delimiter : Option Char} (hd : ∀ d ∈ delimiter, d.toNat < 256) (cs : List Char) :
    unescapeChars (cs.flatMap (escapeChar delimiter)) = cs := by
  induction cs with
  | nil => rfl
  | cons c cs ih => rw [List.flatMap_cons, unescapeChars, unescapeFrom_escapeChar hd, ← unescapeChars, ih]

/-- Escaped text stands for the text it was escaped from. -/
theorem unescape_escape {delimiter : Option Char} (hd : ∀ d ∈ delimiter, d.toNat < 256) (s : String) :
    unescape (escape delimiter s) = s := by
  rw [unescape, escape, String.toList_ofList, unescapeChars_flatMap hd, String.ofList_toList]

/-! ## Sizes -/

theorem utf8ByteSize_eq (s : String) : s.utf8ByteSize = (bytes s.toList).length := by
  rw [← utf8_eq_bytes]
  rfl

theorem fit_of_le {limit : Nat} {s : String} (h : s.utf8ByteSize ≤ limit) : fit limit s = s := if_pos h

theorem bytes_ascii {cs : List Char} (h : ∀ c ∈ cs, c.toNat < 128) :
    bytes cs = cs.map fun c => UInt8.ofNat c.toNat := by
  induction cs with
  | nil => rfl
  | cons c cs ih =>
    rw [bytes_cons_ascii (h c (List.mem_cons_self ..)), ih fun d hd => h d (List.mem_cons_of_mem _ hd), List.map_cons]

theorem fitChars_ascii {cs : List Char} (h : ∀ c ∈ cs, c.toNat < 128) (limit : Nat) :
    fitChars limit cs = cs.take limit := by
  induction cs generalizing limit with
  | nil => simp [fitChars]
  | cons c cs ih =>
    have hsize : c.utf8Size = 1 := by
      rw [← String.length_utf8EncodeChar, encode_ascii (h c (List.mem_cons_self ..)), List.length_singleton]
    cases limit with
    | zero => simp [fitChars, hsize]
    | succ limit => simp [fitChars, hsize, ih fun d hd => h d (List.mem_cons_of_mem _ hd)]

/-- A text of ASCII characters is cut like a list. -/
theorem toList_fit_ascii {s : String} (h : ∀ c ∈ s.toList, c.toNat < 128) (limit : Nat) :
    (fit limit s).toList = s.toList.take limit := by
  rw [fit]
  split
  · rename_i hle
    rw [utf8ByteSize_eq, bytes_ascii h, List.length_map] at hle
    rw [List.take_of_length_le hle]
  · rw [String.toList_ofList, fitChars_ascii h]

/-- The bytes of ASCII characters, each shown as a character, are these again. -/
theorem map_shown_ascii {cs : List Char} (h : ∀ c ∈ cs, c.toNat < 128) : (bytes cs).map shown = cs := by
  rw [bytes_ascii h, List.map_map]
  exact List.map_congr_left (fun c hc => shown_ascii (h c hc)) |>.trans (List.map_id _)

end HostScript.Text
