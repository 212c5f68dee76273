import HostScript.Text.Ascii
import HostScript.Text.Utf8
/-!
# Texts and their bytes

The bytes of a text read back as the text. An ASCII character is its own byte, and all bytes of any other
character lie above the ASCII ones, so that whoever looks for ASCII characters among the bytes finds them
where the text has them.
-/

set_option autoImplicit false

namespace HostScript.Text

/-! ## Bytes of a text -/

/-- The bytes of some characters. -/
def bytes (cs : List Char) : List UInt8 := cs.flatMap String.utf8EncodeChar

theorem utf8_eq_bytes (s : String) : utf8 s = bytes s.toList := by
  rw [utf8, ← String.utf8Encode_toList, List.utf8Encode, List.data_toByteArray, bytes]

@[simp]
theorem bytes_nil : bytes [] = [] := rfl

theorem bytes_cons (c : Char) (cs : List Char) : bytes (c :: cs) = String.utf8EncodeChar c ++ bytes cs :=
  List.flatMap_cons

@[simp]
theorem bytes_append (cs cs' : List Char) : bytes (cs ++ cs') = bytes cs ++ bytes cs' := List.flatMap_append

/-- No character is without bytes. -/
theorem length_le_bytes (cs : List Char) : cs.length ≤ (bytes cs).length := by
  induction cs with
  | nil => exact Nat.le_refl _
  | cons c cs ih =>
    have := c.utf8Size_pos
    rw [bytes_cons, List.length_append, String.length_utf8EncodeChar, List.length_cons]
    omega

/-- The character of a byte's code. -/
def shown (b : UInt8) : Char := Char.ofNat b.toNat

theorem toNat_shown (b : UInt8) : (shown b).toNat = b.toNat := by
  have hb := b.toNat_lt
  rw [shown, Char.ofNat, dif_pos (Or.inl (by omega))]
  rfl

theorem encode_ascii {c : Char} (hc : c.toNat < 128) : String.utf8EncodeChar c = [UInt8.ofNat c.toNat] :=
  if_pos (Nat.le_of_lt_succ hc)

theorem shown_ascii {c : Char} (hc : c.toNat < 128) : shown (UInt8.ofNat c.toNat) = c := by
  have hn : (UInt8.ofNat c.toNat).toNat = c.toNat := by
    rw [UInt8.toNat_ofNat']
    omega
  rw [shown, hn, Char.ofNat_toNat]

theorem encode_high {c : Char} (hc : ¬c.toNat < 128) : ∀ b ∈ String.utf8EncodeChar c, 128 ≤ b.toNat := by
  have hmod : ∀ {x lead m : Nat}, 128 ≤ lead → m + lead ≤ 256 → 0 < m →
      128 ≤ (UInt8.ofNat (x % m + lead)).toNat := by
    intro x lead m hl hm hpos
    have := Nat.mod_lt x hpos
    rw [UInt8.toNat_ofNat']
    omega
  intro b hb
  have h1 : ¬c.val.toNat ≤ 0x7f := fun h => hc (Nat.lt_succ_of_le h)
  unfold String.utf8EncodeChar at hb
  simp only [h1, if_false] at hb
  split at hb
  · rcases hb with _ | ⟨_, _ | ⟨_, ⟨⟩⟩⟩ <;> exact hmod (by decide) (by decide) (by decide)
  · split at hb
    · rcases hb with _ | ⟨_, _ | ⟨_, _ | ⟨_, ⟨⟩⟩⟩⟩ <;> exact hmod (by decide) (by decide) (by decide)
    · rcases hb with _ | ⟨_, _ | ⟨_, _ | ⟨_, _ | ⟨_, ⟨⟩⟩⟩⟩⟩ <;> exact hmod (by decide) (by decide) (by decide)

/-- Only the first byte of a character may be ASCII. -/
theorem encode_tail_high {c : Char} {lead : UInt8} {tail : List UInt8} (h : String.utf8EncodeChar c = lead :: tail) :
    ∀ b ∈ tail, 128 ≤ b.toNat := by
  intro b hb
  by_cases hc : c.toNat < 128
  · rw [encode_ascii hc] at h
    cases h
    cases hb
  · exact encode_high hc b (by rw [h]; exact List.mem_cons_of_mem _ hb)

theorem bytes_cons_ascii {c : Char} (hc : c.toNat < 128) (cs : List Char) :
    bytes (c :: cs) = UInt8.ofNat c.toNat :: bytes cs := by
  rw [bytes_cons, encode_ascii hc]
  rfl

/-- A byte of a character looks like an ASCII character only if it is this character. -/
theorem shown_eq {c x : Char} (hx : x.toNat < 128) {b : UInt8} (hb : b ∈ String.utf8EncodeChar c) (h : shown b = x) :
    c = x := by
  by_cases hc : c.toNat < 128
  · rw [encode_ascii hc, List.mem_singleton] at hb
    rw [← h, hb, shown_ascii hc]
  · have hhigh := encode_high hc b hb
    rw [← toNat_shown, h] at hhigh
    omega

/-- An ASCII character that a text does not have is not among what its bytes look like. -/
theorem shown_ne_of_notMem {x : Char} {cs : List Char} (hx : x.toNat < 128) (hcs : x ∉ cs) :
    ∀ b ∈ bytes cs, shown b ≠ x := by
  intro b hb h
  obtain ⟨c, hc, hb⟩ := List.mem_flatMap.mp hb
  exact hcs (shown_eq hx hb h ▸ hc)

theorem shown_head? {x : Char} {cs : List Char} (hx : x.toNat < 128) (hcs : ∀ c ∈ cs.head?, c = x) :
    ∀ b ∈ (bytes cs).head?, shown b = x := by
  cases cs with
  | nil =>
    intro b hb
    cases hb
  | cons c cs =>
    obtain rfl := hcs c rfl
    rw [bytes_cons_ascii hx]
    rintro b ⟨⟩
    exact shown_ascii hx

/-! ## Reading characters back -/

section Leading

variable {v : Nat}

theorem toNat_lead {lead : Nat} (m : Nat) (hv : v < m) (hl : m + lead ≤ 256) :
    (UInt8.ofNat (v % m + lead)).toNat = v + lead := by
  rw [Nat.mod_eq_of_lt hv, UInt8.toNat_ofNat']
  omega

theorem toNat_continuation (v : Nat) : (UInt8.ofNat (v % 0x40 + 0x80)).toNat = v % 64 + 128 := by
  rw [UInt8.toNat_ofNat']
  omega

theorem isContinuation_of {b : UInt8} (hb : b.toNat = v % 64 + 128) : isContinuation b = true := by
  simp only [isContinuation, UInt8.le_iff_toNat_le, hb, Bool.and_eq_true, decide_eq_true_iff]
  exact ⟨by simp, by simp; omega⟩

theorem leading_one {lead : UInt8} {rest : List UInt8} (hlead : lead.toNat = v) (hv : v ≤ 0x7f) :
    leading lead rest = (Char.ofNat v, 0) := by
  have h : lead < 0x80 := by
    simp [UInt8.lt_iff_toNat_lt, hlead]
    omega
  simp [leading, h, hlead]

theorem leading_two {lead b : UInt8} {rest : List UInt8} (hv : 0x7f < v ∧ v ≤ 0x7ff) (hlead : lead.toNat = v / 64 + 0xc0)
    (hb : b.toNat = v % 64 + 128) : leading lead (b :: rest) = (Char.ofNat v, 1) := by
  have h1 : ¬lead < 0x80 := by simp [UInt8.lt_iff_toNat_lt, hlead]
  have h2 : ¬(lead < 0xC2 || 0xF4 < lead) := by
    simp [UInt8.lt_iff_toNat_lt, hlead]
    omega
  have h3 : lead < 0xE0 := by
    simp [UInt8.lt_iff_toNat_lt, hlead]
    omega
  have hval : payload lead 32 * 64 + payload b 64 = v := by
    simp only [payload, hlead, hb]
    omega
  simp [leading, h1, h2, h3, isContinuation_of hb, hval]

theorem leading_three {lead b d : UInt8} {rest : List UInt8} (hv : 0x7ff < v ∧ v ≤ 0xffff)
    (hscalar : v < 0xD800 ∨ 0xDFFF < v) (hlead : lead.toNat = v / 4096 + 0xe0) (hb : b.toNat = v / 64 % 64 + 128)
    (hd : d.toNat = v % 64 + 128) : leading lead (b :: d :: rest) = (Char.ofNat v, 2) := by
  have h1 : ¬lead < 0x80 := by simp [UInt8.lt_iff_toNat_lt, hlead]
  have h2 : ¬(lead < 0xC2 || 0xF4 < lead) := by
    simp [UInt8.lt_iff_toNat_lt, hlead]
    omega
  have h3 : ¬lead < 0xE0 := by simp [UInt8.lt_iff_toNat_lt, hlead]
  have h4 : lead < 0xF0 := by
    simp [UInt8.lt_iff_toNat_lt, hlead]
    omega
  have hsecond : isSecond lead b = true := by
    unfold isSecond isContinuation
    simp only [beq_iff_eq, ← UInt8.toNat_inj, UInt8.le_iff_toNat_le, UInt8.reduceToNat, hlead, hb]
    simp only [Bool.ite_eq_true_distrib, Bool.and_eq_true, decide_eq_true_iff]
    grind
  have hval : payload lead 16 * 4096 + payload b 64 * 64 + payload d 64 = v := by
    simp only [payload, hlead, hb, hd]
    omega
  simp [leading, h1, h2, h3, h4, hsecond, isContinuation_of hd, hval]

theorem leading_four {lead b d e : UInt8} {rest : List UInt8} (hv : 0xffff < v ∧ v < 0x110000)
    (hlead : lead.toNat = v / 262144 + 0xf0) (hb : b.toNat = v / 4096 % 64 + 128)
    (hd : d.toNat = v / 64 % 64 + 128) (he : e.toNat = v % 64 + 128) :
    leading lead (b :: d :: e :: rest) = (Char.ofNat v, 3) := by
  have h1 : ¬lead < 0x80 := by simp [UInt8.lt_iff_toNat_lt, hlead]
  have h2 : ¬(lead < 0xC2 || 0xF4 < lead) := by
    simp [UInt8.lt_iff_toNat_lt, hlead]
    omega
  have h3 : ¬lead < 0xE0 := by simp [UInt8.lt_iff_toNat_lt, hlead]
  have h4 : ¬lead < 0xF0 := by simp [UInt8.lt_iff_toNat_lt, hlead]
  have hsecond : isSecond lead b = true := by
    unfold isSecond isContinuation
    simp only [beq_iff_eq, ← UInt8.toNat_inj, UInt8.le_iff_toNat_le, UInt8.reduceToNat, hlead, hb]
    simp only [Bool.ite_eq_true_distrib, Bool.and_eq_true, decide_eq_true_iff]
    grind
  have hval : payload lead 8 * 262144 + payload b 64 * 4096 + payload d 64 * 64 + payload e 64 = v := by
    simp only [payload, hlead, hb, hd, he]
    omega
  simp [leading, h1, h2, h3, h4, hsecond, isContinuation_of hd, isContinuation_of he, hval]

end Leading

/-- The bytes of a character read back as it, whatever follows. -/
theorem leading_encode (c : Char) (rest : List UInt8) :
    ∃ lead tail, String.utf8EncodeChar c = lead :: tail ∧ leading lead (tail ++ rest) = (c, tail.length) := by
  have hc : Char.ofNat c.val.toNat = c := Char.ofNat_toNat c
  have hv : c.val.toNat < 0xD800 ∨ 0xDFFF < c.val.toNat ∧ c.val.toNat < 0x110000 := c.valid
  unfold String.utf8EncodeChar
  generalize c.val.toNat = v at *
  subst hc
  dsimp only
  by_cases h1 : v ≤ 0x7f
  · exact ⟨_, _, if_pos h1, leading_one (by rw [UInt8.toNat_ofNat']; omega) h1⟩
  by_cases h2 : v ≤ 0x7ff
  · refine ⟨_, _, (if_neg h1).trans (if_pos h2), ?_⟩
    exact leading_two ⟨by omega, h2⟩ (toNat_lead 0x20 (by omega) (by decide)) (toNat_continuation _)
  by_cases h3 : v ≤ 0xffff
  · refine ⟨_, _, (if_neg h1).trans ((if_neg h2).trans (if_pos h3)), ?_⟩
    exact leading_three ⟨by omega, h3⟩ (by omega) (toNat_lead 0x10 (by omega) (by decide)) (toNat_continuation _)
      (toNat_continuation _)
  · refine ⟨_, _, (if_neg h1).trans ((if_neg h2).trans (if_neg h3)), ?_⟩
    exact leading_four ⟨by omega, by omega⟩ (toNat_lead 0x08 (by omega) (by decide)) (toNat_continuation _)
      (toNat_continuation _) (toNat_continuation _)

theorem decodeFrom_skip (skipped rest : List UInt8) :
    decodeFrom skipped.length (skipped ++ rest) = decodeFrom 0 rest := by
  induction skipped with
  | nil => rfl
  | cons b skipped ih => exact ih

/-- Whole characters are read, whatever follows them. -/
theorem decodeFrom_bytes_append (cs : List Char) (rest : List UInt8) :
    decodeFrom 0 (bytes cs ++ rest) = cs ++ decodeFrom 0 rest := by
  induction cs with
  | nil => rfl
  | cons c cs ih =>
    obtain ⟨lead, tail, he, hl⟩ := leading_encode c (bytes cs ++ rest)
    rw [bytes_cons, he, List.cons_append, List.cons_append, List.append_assoc, decodeFrom, hl]
    exact congrArg (c :: ·) ((decodeFrom_skip _ _).trans ih)

theorem decodeFrom_bytes (cs : List Char) : decodeFrom 0 (bytes cs) = cs := by
  have h := decodeFrom_bytes_append cs []
  rwa [List.append_nil, decodeFrom, List.append_nil] at h

/-- The bytes of some characters read back as these. -/
theorem decode_bytes (cs : List Char) : decode (bytes cs) = String.ofList cs := by rw [decode, decodeFrom_bytes]

theorem decode_utf8 (s : String) : decode (utf8 s) = s := by rw [utf8_eq_bytes, decode_bytes, String.ofList_toList]

theorem utf8_injective : Function.Injective utf8 := Function.LeftInverse.injective decode_utf8

end HostScript.Text
