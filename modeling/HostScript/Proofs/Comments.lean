import HostScript.Proofs.LineCounts
/-!
# Comments as white space

White space is skipped in pieces, each of them a white character or a comment. Here white characters take the place of
a comment, and a cursor in the one source is compared with a cursor in the other: they stand beside each other before
the place, or behind what stands there. They see the same, except at the place itself, and go on beside each other as
long as the cursor in the source with the comment does not pass the place in the middle of something.
-/

set_option autoImplicit false

namespace HostScript

open HostScript.Text

namespace Cursor

variable {c d e : Cursor} {n m : Nat}

/-! ## White space in pieces -/

/-- The place behind the white character or the comment at a cursor. -/
def behindPiece? (c : Cursor) : Option Cursor :=
  if isWhite c.peek then some c.advance
  else if c.peek == '/' && c.peekAt 1 == '/' then some (lineComment c.rest.length c)
  else if c.peek == '/' && c.peekAt 1 == '*' then some (blockComment c.rest.length (c.skip 2))
  else none

theorem behindPiece_of_peek {a : Char} (h : c.peek = a) (hwhite : isWhite a = false) (hslash : a ≠ '/') :
    c.behindPiece? = none := by
  unfold behindPiece?
  rw [h, if_neg (by rw [hwhite]; exact Bool.false_ne_true), if_neg (by simp [hslash]), if_neg (by simp [hslash])]

/-- The places at which skipping white space comes by. -/
inductive Skips : Cursor → Cursor → Prop
  | here (c : Cursor) : Skips c c
  | next {c d e : Cursor} : c.behindPiece? = some d → Skips d e → Skips c e

/-- A line comment takes the slash that it starts with. -/
theorem lineComment_before (h : c.peek = '/') : c.Before (lineComment c.rest.length c) := by
  have hend : c.atEnd = false := not_atEnd_of_peek (by rw [h]; decide)
  obtain ⟨m, hm⟩ := Nat.exists_eq_succ_of_ne_zero (Nat.ne_zero_of_lt (length_advance hend))
  rw [hm, lineComment, if_neg (by rw [hend, h]; decide)]
  exact (advance_before c).trans (lineComment_upto m c.advance)

theorem behindPiece_before (h : c.behindPiece? = some d) : c.Before d ∧ c.atEnd = false := by
  unfold behindPiece? at h
  split at h
  · rename_i hwhite
    cases h
    exact ⟨advance_before c, not_atEnd_of_peek fun hnul => absurd (hnul ▸ hwhite) (by decide)⟩
  split at h
  · rename_i hline
    have hslash : c.peek = '/' := by simp_all
    cases h
    exact ⟨lineComment_before hslash, not_atEnd_of_peek (by rw [hslash]; decide)⟩
  split at h
  · rename_i hblock
    have hslash : c.peek = '/' := by simp_all
    cases h
    exact ⟨(skip_before c Nat.two_pos).trans (blockComment_upto _ _), not_atEnd_of_peek (by rw [hslash]; decide)⟩
  · cases h

theorem behindPiece_shorter (h : c.behindPiece? = some d) : d.rest.length < c.rest.length :=
  (behindPiece_before h).1.rest_lt (behindPiece_before h).2

theorem skipWhiteWithin_succ (n : Nat) (c : Cursor) :
    skipWhiteWithin (n + 1) c = (c.behindPiece?.map (skipWhiteWithin n)).getD c := by
  rw [skipWhiteWithin, behindPiece?]
  split
  · rfl
  split
  · rfl
  split <;> rfl

/-- It does not matter how much white space was allowed for. -/
theorem skipWhite_eq_within (h : c.rest.length < n) : c.skipWhite = skipWhiteWithin n c :=
  Comes.unique (toSolid_comes (Nat.lt_succ_self _)) (toSolid_comes h)

theorem skipWhite_of_piece (h : c.behindPiece? = some d) : c.skipWhite = d.skipWhite := by
  rw [skipWhite, skipWhiteWithin_succ, h]
  exact (skipWhite_eq_within (behindPiece_shorter h)).symm

theorem skipWhite_of_none (h : c.behindPiece? = none) : c.skipWhite = c := by
  rw [skipWhite, skipWhiteWithin_succ, h]
  rfl

theorem Skips.upto (h : c.Skips d) : c.Upto d := by
  induction h with
  | here => exact .rfl
  | next hpiece _ ih => exact (behindPiece_before hpiece).1.upto.trans ih

theorem blockComment_atEnd (h : c.atEnd = true) (n : Nat) : blockComment n c = c := by
  cases n with
  | zero => rfl
  | succ n => rw [blockComment, if_pos h]

theorem blockComment_before (h : c.atEnd = false) (n : Nat) : c.Before (blockComment (n + 1) c) := by
  rw [blockComment, if_neg (by rw [h]; exact Bool.false_ne_true)]
  split
  · exact skip_before c Nat.two_pos
  · exact (advance_before c).trans (blockComment_upto _ _)

theorem length_pos_of_not_atEnd (h : c.atEnd = false) : 0 < c.rest.length :=
  List.length_pos_iff.mpr (List.isEmpty_eq_false_iff.mp h)

theorem peek_advance (c : Cursor) : c.advance.peek = c.peekAt 1 := by
  unfold advance peek peekAt
  cases c.rest <;> rfl

/-! ## Where scanning stops -/

theorem toDelimiter_end {delimiter : Char} (hn : c.rest.length ≤ n) :
    ((c.toDelimiter delimiter n).atEnd || (c.toDelimiter delimiter n).peek == delimiter) = true := by
  induction n generalizing c with
  | zero => simp [toDelimiter, atEnd, List.eq_nil_of_length_eq_zero (Nat.le_zero.mp hn)]
  | succ n ih =>
    rw [toDelimiter]
    split
    · assumption
    · rename_i hgo
      have hshort : c.advance.rest.length < c.rest.length := length_advance (by simp_all)
      exact ih (by omega)

/-- An expression does not end at a slash. -/
theorem toExpressionEnd_end {ending : Char} {depth : Nat} {quoted : Bool} (hn : c.rest.length < n) :
    (c.toExpressionEnd ending n depth quoted).1.peek ≠ '/' := by
  induction n generalizing c depth quoted with
  | zero => cases hn
  | succ n ih =>
    rw [toExpressionEnd]
    split
    · rename_i hend
      rw [peek_of_atEnd hend]
      decide
    rename_i hend
    have hshort := length_advance (Bool.eq_false_iff.mpr hend)
    have hnext {depth : Nat} {quoted : Bool} : (c.advance.toExpressionEnd ending n depth quoted).1.peek ≠ '/' :=
      ih (by omega)
    dsimp only
    split
    · split
      · have hskip := ((skip_before c Nat.one_pos).trans (advance_before _).upto).rest_lt (Bool.eq_false_iff.mpr hend)
        exact ih (by omega)
      · exact hnext
    split
    · exact hnext
    split
    · exact hnext
    split
    · rename_i hclose
      have hclose : c.peek ≠ '/' := by
        rw [beq_iff_eq.mp hclose]
        decide
      split
      · split
        · exact hclose
        · exact hclose
      · exact hnext
    split
    · rename_i hsemi
      have hsemi : c.peek = ';' := by simp_all
      rw [hsemi]
      decide
    · exact hnext

/-- Where the expression at a cursor ends. -/
def expressionEnd (c : Cursor) (ending : Char) : Cursor := (c.toExpressionEnd ending (c.rest.length + 1) 0 false).1

/-- The text of a segment of an external statement. -/
def segmentText (c : Cursor) : String :=
  let plain := c.peek.isAlphanum || c.peek == ';'
  let delimiter := if plain then ';' else c.peek
  let start := if plain then c else c.advance
  start.textTo (start.toDelimiter delimiter (start.rest.length + 1))

theorem skipWhite_white {white : List UInt8} (h : ∀ b ∈ white, isWhite (shown b) = true) (rest : List UInt8)
    (offset line : Nat) : (⟨white ++ rest, offset, line⟩ : Cursor).skipWhite =
      (⟨rest, offset + white.length, line + white.count lineFeed⟩ : Cursor).skipWhite := by
  induction white generalizing offset line with
  | nil => rfl
  | cons w white ih =>
    obtain ⟨hw, hwhite⟩ := List.forall_mem_cons.mp h
    have hpiece : (⟨w :: (white ++ rest), offset, line⟩ : Cursor).behindPiece? =
        some ⟨white ++ rest, offset + 1, if shown w == '\n' then line + 1 else line⟩ := if_pos hw
    have hline : (if shown w == '\n' then line + 1 else line) + white.count lineFeed =
        line + (w :: white).count lineFeed := by
      rw [List.count_cons]
      by_cases hfeed : w = lineFeed
      · rw [if_pos (by rw [(shown_eq_newline w).mpr hfeed]; rfl), if_pos (by rw [hfeed]; rfl)]
        omega
      · rw [if_neg (by simpa [shown_eq_newline] using hfeed), if_neg (by simpa using hfeed)]
        rfl
    rw [List.cons_append, skipWhite_of_piece hpiece, ih hwhite, hline, List.length_cons, Nat.add_right_comm,
      Nat.add_assoc]

/-- No piece of white space is left behind it. -/
theorem behindPiece_skipWhite (c : Cursor) : c.skipWhite.behindPiece? = none := by
  cases hd : c.skipWhite.behindPiece? with
  | none => rfl
  | some d =>
    have hshorter := behindPiece_shorter hd
    have hsame := skipWhite_of_piece hd
    rw [(skipWhite_stops c).2] at hsame
    have hle := (skipWhite_upto d).rest_le
    rw [← hsame] at hle
    omega

/-- The cursor, some bytes later in a longer source. -/
def later (c : Cursor) (n : Nat) : Cursor := { c with offset := c.offset + n }

theorem later_advance (c : Cursor) (n : Nat) : (c.later n).advance = c.advance.later n := by
  simp only [later, advance, Nat.add_right_comm c.offset n 1]
  rfl

theorem later_skip (c : Cursor) (n m : Nat) : (c.later n).skip m = (c.skip m).later n := by
  simp only [later, skip, Nat.add_right_comm c.offset n m]

end Cursor

/-! ## White space in the place of a comment -/

/-- A comment in a source, and the white characters that take its place. -/
structure Blank where
  /-- The offset at which the comment starts. -/
  place : Nat
  comment : List UInt8
  white : List UInt8
  /-- What follows in either source. -/
  after : List UInt8
  slash : (shown <$> comment.head?) = some '/'
  whole : ∀ offset line, (⟨comment ++ after, offset, line⟩ : Cursor).behindPiece? =
    some ⟨after, offset + comment.length, line + comment.count lineFeed⟩
  blank : ∀ b ∈ white, isWhite (shown b) = true
  some_white : white ≠ []
  lines : white.count lineFeed = comment.count lineFeed

namespace Blank

open Cursor (behindPiece? Skips)

variable {b : Blank} {c c' d d' : Cursor}

variable (b) in
/-- A cursor in the source with the comment, and one in the source with white space in its place. -/
inductive Beside : Cursor → Cursor → Prop
  | before {ahead : List UInt8} {offset line : Nat} : offset + ahead.length = b.place →
    Beside ⟨ahead ++ (b.comment ++ b.after), offset, line⟩ ⟨ahead ++ (b.white ++ b.after), offset, line⟩
  | behind {c : Cursor} : b.place ≤ c.offset → Beside (c.later b.comment.length) (c.later b.white.length)

variable (b) in
/-- Two such cursors, not at the comment. -/
inductive Level : Cursor → Cursor → Prop
  | before {first : UInt8} {ahead : List UInt8} {offset line : Nat} : offset + (ahead.length + 1) = b.place →
    Level ⟨first :: (ahead ++ (b.comment ++ b.after)), offset, line⟩
      ⟨first :: (ahead ++ (b.white ++ b.after)), offset, line⟩
  | behind {c : Cursor} : b.place ≤ c.offset → Level (c.later b.comment.length) (c.later b.white.length)

variable (b) in
/-- The comment does not start in the middle of a stretch. -/
def Spared (c d : Cursor) : Prop := ¬(c.offset < b.place ∧ b.place < d.offset)

variable (b) in
/-- The whole stretch is before the comment, and not up to it, or behind it. -/
def Clear (c d : Cursor) : Prop := d.offset < b.place ∨ b.place < c.offset

theorem comment_eq (b : Blank) : ∃ slash rest, b.comment = slash :: rest ∧ shown slash = '/' := by
  have hslash := b.slash
  cases hcomment : b.comment with
  | nil =>
    rw [hcomment] at hslash
    cases hslash
  | cons slash rest =>
    rw [hcomment] at hslash
    exact ⟨slash, rest, rfl, Option.some.inj hslash⟩

theorem white_eq (b : Blank) : ∃ first rest, b.white = first :: rest ∧ isWhite (shown first) = true := by
  obtain ⟨first, rest, h⟩ := List.exists_cons_of_ne_nil b.some_white
  exact ⟨first, rest, h, b.blank first (by rw [h]; exact List.mem_cons_self)⟩

theorem comment_length_pos (b : Blank) : 0 < b.comment.length := by
  obtain ⟨slash, rest, h, -⟩ := b.comment_eq
  rw [h]
  exact Nat.succ_pos _

theorem takeWhile_stop {α : Type} {p : α → Bool} {l : List α} {x : α} (hx : p x = false) (rest : List α) :
    (l ++ x :: rest).takeWhile p = l.takeWhile p := by
  induction l with
  | nil => exact List.takeWhile_cons_of_neg (by rw [hx]; exact Bool.false_ne_true)
  | cons y l ih => rw [List.cons_append, List.takeWhile_cons, List.takeWhile_cons, ih]

namespace Level

theorem beside (h : b.Level c c') : b.Beside c c' := by
  cases h with
  | before h => exact @Beside.before b (_ :: _) _ _ h
  | behind h => exact .behind h

theorem apart (h : b.Level c c') : c.offset ≠ b.place := by
  have hpos := b.comment_length_pos
  cases h with
  | before h =>
    dsimp only
    omega
  | behind h =>
    dsimp only [Cursor.later]
    omega

theorem peek (h : b.Level c c') : c.peek = c'.peek := by
  cases h <;> rfl

theorem atEnd (h : b.Level c c') : c.atEnd = c'.atEnd := by
  cases h <;> rfl

theorem advance (h : b.Level c c') : b.Beside c.advance c'.advance := by
  cases h with
  | @before first ahead offset line h =>
    have h : offset + 1 + ahead.length = b.place := by omega
    exact .before h
  | @behind c h =>
    rw [Cursor.later_advance, Cursor.later_advance]
    exact .behind (Nat.le_succ_of_le h)

theorem peekAt_one (h : b.Level c c') (hne : c.offset + 1 ≠ b.place) : c.peekAt 1 = c'.peekAt 1 := by
  cases h with
  | @before first ahead offset line h =>
    cases ahead with
    | nil => exact absurd h hne
    | cons second ahead => rfl
  | behind h => rfl

/-- No name goes on at the comment, nor at the white space. -/
theorem nameLength (h : b.Level c c') :
    c.nameLength = c'.nameLength ∧ (c.offset + c.nameLength ≤ b.place ∨ b.place < c.offset) := by
  cases h with
  | @before first ahead offset line h =>
    obtain ⟨slash, rest, hcomment, hslash⟩ := b.comment_eq
    obtain ⟨blank, rest', hwhite, hblank⟩ := b.white_eq
    have hslash : isNameChar (shown slash) = false := by rw [hslash]; rfl
    have hblank : isNameChar (shown blank) = false := isNameChar_of_isWhite hblank
    let p : UInt8 → Bool := fun x => isNameChar (shown x)
    have hname := congrArg List.length (takeWhile_stop (p := p) (l := first :: ahead) hslash (rest ++ b.after))
    have hname' := congrArg List.length (takeWhile_stop (p := p) (l := first :: ahead) hblank (rest' ++ b.after))
    have hle := (List.takeWhile_sublist (l := first :: ahead) p).length_le
    rw [hcomment, hwhite]
    refine ⟨hname.trans hname'.symm, .inl ?_⟩
    rw [← hname, List.length_cons] at hle
    exact h ▸ Nat.add_le_add_left hle offset
  | @behind c h =>
    have hpos := b.comment_length_pos
    exact ⟨rfl, .inr (Nat.lt_of_le_of_lt h (Nat.lt_add_of_pos_right hpos))⟩

end Level

namespace Beside

theorem line (h : b.Beside c c') : c.line = c'.line := by
  cases h <;> rfl

theorem level (h : b.Beside c c') (hne : c.offset ≠ b.place) : b.Level c c' := by
  cases h with
  | @before ahead offset line h =>
    cases ahead with
    | nil => exact absurd h hne
    | cons first ahead => exact .before h
  | behind h => exact .behind h

theorem level_of_clear (h : b.Beside c c') (hd : c.Upto d) (hclear : b.Clear c d) : b.Level c c' := by
  refine h.level ?_
  have := hd.offset
  unfold Clear at hclear
  omega

theorem at_place (h : b.Beside c c') (hplace : c.offset = b.place) :
    ∃ line, c = ⟨b.comment ++ b.after, b.place, line⟩ ∧ c' = ⟨b.white ++ b.after, b.place, line⟩ := by
  have hpos := b.comment_length_pos
  cases h with
  | @before ahead offset line h =>
    obtain rfl : offset = b.place := hplace
    obtain rfl : ahead = [] := List.eq_nil_of_length_eq_zero (by omega)
    exact ⟨line, rfl, rfl⟩
  | behind h =>
    dsimp only [Cursor.later] at hplace
    omega

theorem level_of_none (h : b.Beside c c') (hnone : c.behindPiece? = none) : b.Level c c' := by
  refine h.level fun hplace => ?_
  obtain ⟨line, rfl, -⟩ := h.at_place hplace
  rw [b.whole] at hnone
  cases hnone

/-- At the comment there is a slash, before which nothing stops. -/
theorem peek_at_place (h : b.Beside c c') (hd : c.Upto d) (hplace : d.offset = b.place) : d.peek = '/' := by
  obtain ⟨n, hrest, hoffset⟩ := hd
  have hpos := b.comment_length_pos
  obtain ⟨slash, rest, hcomment, hslash⟩ := b.comment_eq
  cases h with
  | @before ahead offset line h =>
    have hn : n = ahead.length := by
      dsimp only at hoffset
      omega
    rw [hn, List.drop_left, hcomment] at hrest
    rw [Cursor.peek_of_rest hrest, hslash]
  | behind h =>
    dsimp only [Cursor.later] at hoffset
    omega

theorem level_of_atEnd (h : b.Beside c c') (hend : c.atEnd = true) : b.Level c c' := by
  refine h.level fun hplace => ?_
  have hslash := h.peek_at_place .rfl hplace
  rw [Cursor.peek_of_atEnd hend] at hslash
  cases hslash

theorem skip {n : Nat} (h : b.Beside c c') (hn : c.offset + n ≤ b.place ∨ b.place < c.offset) :
    b.Beside (c.skip n) (c'.skip n) := by
  cases h with
  | @before ahead offset line h =>
    dsimp only at hn
    have hle : n ≤ ahead.length := by omega
    have hplace : offset + n + (ahead.drop n).length = b.place := by
      rw [List.length_drop]
      omega
    unfold Cursor.skip
    rw [List.drop_append_of_le_length hle, List.drop_append_of_le_length hle]
    exact .before hplace
  | @behind c h =>
    rw [Cursor.later_skip, Cursor.later_skip]
    exact .behind (Nat.le_add_right_of_le h)

/-- What lies between them is the same text, if the comment is not in it. -/
theorem textTo (h : b.Beside c c') (hd : b.Beside d d') (hupto : c.Upto d)
    (hclear : d.offset ≤ b.place ∨ b.place < c.offset) : c.textTo d = c'.textTo d' := by
  have hpos := b.comment_length_pos
  have hupto := hupto.offset
  cases h with
  | @before ahead offset line h =>
    cases hd with
    | @before ahead' offset' line' h' =>
      have hle : offset' - offset ≤ ahead.length := by omega
      exact congrArg decode ((List.take_append_of_le_length hle).trans (List.take_append_of_le_length hle).symm)
    | behind h' =>
      dsimp only [Cursor.later] at hclear
      omega
  | @behind c h =>
    cases hd with
    | before h' =>
      dsimp only [Cursor.later] at hclear hupto
      omega
    | @behind d h' =>
      unfold Cursor.textTo Cursor.later
      dsimp only
      rw [Nat.add_sub_add_right, Nat.add_sub_add_right]

end Beside

/-- Behind a name they are beside each other again, and it is the same name. -/
theorem Level.skip_name (h : b.Level c c') : b.Beside (c.skip c.nameLength) (c'.skip c'.nameLength) ∧
    c.textTo (c.skip c.nameLength) = c'.textTo (c'.skip c'.nameLength) := by
  obtain ⟨hname, hclear⟩ := h.nameLength
  rw [← hname]
  have hskip := h.beside.skip hclear
  exact ⟨hskip, h.beside.textTo hskip (Cursor.skip_upto _ _) hclear⟩

theorem Level.skip_one (h : b.Level c c') : b.Beside (c.skip 1) (c'.skip 1) := by
  have := h.apart
  exact h.beside.skip (by omega)

/-! ## Scanning on either side -/

theorem Clear.advance (h : b.Clear c d) : b.Clear c.advance d := h.imp_right Nat.lt_succ_of_lt

namespace Beside

variable {n n' : Nat}

theorem toDelimiter {delimiter : Char} (h : b.Beside c c') (hn : c.rest.length ≤ n) (hn' : c'.rest.length ≤ n')
    (hclear : b.Clear c (c.toDelimiter delimiter n)) :
    b.Level (c.toDelimiter delimiter n) (c'.toDelimiter delimiter n') := by
  induction n generalizing c c' n' with
  | zero =>
    have hlevel := h.level_of_clear (Cursor.toDelimiter_upto _ _ _) hclear
    have hend : c.atEnd = true := List.isEmpty_iff_length_eq_zero.mpr (Nat.le_zero.mp hn)
    rw [Cursor.toDelimiter_stops (c := c') (by rw [← hlevel.atEnd, hend, Bool.true_or])]
    exact hlevel
  | succ n ih =>
    have hlevel := h.level_of_clear (Cursor.toDelimiter_upto _ _ _) hclear
    by_cases hstop : (c.atEnd || c.peek == delimiter) = true
    · rw [Cursor.toDelimiter_stops hstop,
        Cursor.toDelimiter_stops (c := c') (by rw [← hlevel.atEnd, ← hlevel.peek, hstop])]
      exact hlevel
    · have hend : c.atEnd = false := by simp_all
      have hshort := Cursor.length_advance hend
      have hshort' := Cursor.length_advance (hlevel.atEnd ▸ hend)
      obtain ⟨n', rfl⟩ := Nat.exists_eq_succ_of_ne_zero (n := n') (by omega)
      rw [Cursor.toDelimiter, if_neg hstop] at hclear
      rw [Cursor.toDelimiter, Cursor.toDelimiter, ← hlevel.atEnd, ← hlevel.peek, if_neg hstop, if_neg hstop]
      exact ih hlevel.advance (by omega) (by omega) hclear.advance

theorem lineComment (h : b.Beside c c') (hn : c.rest.length ≤ n) (hn' : c'.rest.length ≤ n')
    (hclear : b.Clear c (c.lineComment n)) : b.Level (c.lineComment n) (c'.lineComment n') := by
  simp only [Cursor.lineComment_eq_toDelimiter] at hclear ⊢
  exact h.toDelimiter hn hn' hclear

/-- A block comment may end at the place. -/
theorem blockComment (h : b.Beside c c') (hn : c.rest.length ≤ n) (hn' : c'.rest.length ≤ n')
    (hclear : (c.blockComment n).offset ≤ b.place ∨ b.place < c.offset) :
    b.Beside (c.blockComment n) (c'.blockComment n') := by
  induction n generalizing c c' n' with
  | zero =>
    have hend : c.atEnd = true := List.isEmpty_iff_length_eq_zero.mpr (Nat.le_zero.mp hn)
    rw [Cursor.blockComment_atEnd (c := c') (by rw [← (h.level_of_atEnd hend).atEnd, hend])]
    exact h
  | succ n ih =>
    by_cases hend : c.atEnd = true
    · rw [Cursor.blockComment_atEnd hend,
        Cursor.blockComment_atEnd (c := c') (by rw [← (h.level_of_atEnd hend).atEnd, hend])]
      exact h
    have hend := Bool.eq_false_iff.mpr hend
    have hlevel := h.level (by have := (Cursor.blockComment_before hend n).offset; omega)
    -- if the place were next, the comment would go on over it
    have hnext : c.offset + 1 ≠ b.place := by
      intro hplace
      have hslash := h.peek_at_place (Cursor.advance_before c).upto hplace
      have hmore : c.advance.atEnd = false := Cursor.not_atEnd_of_peek (by rw [hslash]; decide)
      have hover : c.offset + 1 < (c.blockComment (n + 1)).offset := by
        rw [Cursor.blockComment, if_neg (by rw [hend]; exact Bool.false_ne_true)]
        split
        · exact Nat.lt_succ_self _
        · have hshort := Cursor.length_advance hend
          have hpos := Cursor.length_pos_of_not_atEnd hmore
          obtain ⟨n, rfl⟩ := Nat.exists_eq_succ_of_ne_zero (n := n) (by omega)
          exact (Cursor.blockComment_before hmore n).offset
      omega
    have hshort := Cursor.length_advance hend
    have hshort' := Cursor.length_advance (hlevel.atEnd ▸ hend)
    obtain ⟨n', rfl⟩ := Nat.exists_eq_succ_of_ne_zero (n := n') (by omega)
    rw [Cursor.blockComment] at hclear
    rw [Cursor.blockComment, Cursor.blockComment, ← hlevel.atEnd, ← hlevel.peek, ← hlevel.peekAt_one hnext]
    have hgo : ¬c.atEnd = true := by rw [hend]; exact Bool.false_ne_true
    rw [if_neg hgo] at hclear
    rw [if_neg hgo, if_neg hgo]
    by_cases hclose : (c.peek == '*' && c.peekAt 1 == '/') = true
    · rw [if_pos hclose] at hclear
      rw [if_pos hclose, if_pos hclose]
      exact h.skip hclear
    · rw [if_neg hclose] at hclear
      rw [if_neg hclose, if_neg hclose]
      exact ih hlevel.advance (by omega) (by omega) (hclear.imp_right Nat.lt_succ_of_lt)

/-- Searching for the end of an expression stops in the same place, and for the same reason, if it stops before the
comment or has started behind it. -/
def StopsAlike (b : Blank) (c : Cursor) (r r' : Cursor × Option ScriptError) : Prop :=
  b.Clear c r.1 → b.Level r.1 r'.1 ∧ r.2 = r'.2

theorem StopsAlike.ite {p : Prop} [Decidable p] {r₁ r₂ r₁' r₂' : Cursor × Option ScriptError}
    (h₁ : p → StopsAlike b c r₁ r₁') (h₂ : ¬p → StopsAlike b c r₂ r₂') :
    StopsAlike b c (if p then r₁ else r₂) (if p then r₁' else r₂') := by
  split
  · exact h₁ ‹p›
  · exact h₂ ‹¬p›

theorem toExpressionEnd {ending : Char} {depth : Nat} {quoted : Bool} (h : b.Beside c c') (hn : c.rest.length < n)
    (hn' : c'.rest.length < n') :
    StopsAlike b c (c.toExpressionEnd ending n depth quoted) (c'.toExpressionEnd ending n' depth quoted) := by
  induction n generalizing c c' n' depth quoted with
  | zero => cases hn
  | succ n ih =>
    obtain ⟨n', rfl⟩ := Nat.exists_eq_succ_of_ne_zero (Nat.ne_zero_of_lt hn')
    intro hclear
    have hlevel := h.level_of_clear (Cursor.toExpressionEnd_upto _ _ _ _ _) hclear
    have hhere {e : Option ScriptError} : StopsAlike b c (c, e) (c', e) := fun _ => ⟨hlevel, rfl⟩
    revert hclear
    change StopsAlike b c _ _
    rw [Cursor.toExpressionEnd, Cursor.toExpressionEnd, ← hlevel.atEnd, ← hlevel.peek]
    refine .ite (fun _ => hhere) fun hend => ?_
    have hend := Bool.eq_false_iff.mpr hend
    have hshort := Cursor.length_advance hend
    have hshort' := Cursor.length_advance (hlevel.atEnd ▸ hend)
    have hnext {depth : Nat} {quoted : Bool} : StopsAlike b c (c.advance.toExpressionEnd ending n depth quoted)
        (c'.advance.toExpressionEnd ending n' depth quoted) := fun hclear =>
      ih hlevel.advance (by omega) (by omega) hclear.advance
    dsimp only
    refine .ite (fun _ => ?_) fun _ => .ite (fun _ => hnext) fun _ => .ite (fun _ => hnext) fun _ => ?_
    · by_cases hescape : (c.peek == '\\' && c.peekAt 1 != '\x00') = true
      · rw [if_pos hescape]
        intro hclear
        have hnext : c.offset + 1 ≠ b.place := by
          have hover : c.offset + 2 ≤ _ :=
            (Cursor.toExpressionEnd_upto ending n depth true (c.skip 1).advance).offset
          unfold Clear at hclear
          omega
        have hskip := ((Cursor.skip_before c Nat.one_pos).trans (Cursor.advance_before _).upto).rest_lt hend
        have hskip' := ((Cursor.skip_before c' Nat.one_pos).trans (Cursor.advance_before _).upto).rest_lt
          (hlevel.atEnd ▸ hend)
        rw [← hlevel.peekAt_one hnext, if_pos hescape]
        refine ih (hlevel.skip_one.level hnext).advance (by omega) (by omega) ?_
        exact hclear.imp_right fun hlt => Nat.lt_succ_of_lt (Nat.lt_succ_of_lt hlt)
      · have hescape' : ¬(c.peek == '\\' && c'.peekAt 1 != '\x00') = true := by
          intro h'
          refine hescape ?_
          by_cases hnext : c.offset + 1 = b.place
          · have hslash := h.peek_at_place (Cursor.advance_before c).upto hnext
            rw [Cursor.peek_advance] at hslash
            rw [hslash]
            simp_all
          · rwa [hlevel.peekAt_one hnext]
        rw [if_neg hescape, if_neg hescape']
        exact hnext
    refine .ite (fun _ => .ite (fun _ => ?_) fun _ => hnext) fun _ => .ite (fun _ => hhere) fun _ => hnext
    exact .ite (fun _ => hhere) fun _ => hhere

end Beside

/-! ## Reading on either side -/

theorem Spared.clear (h : b.Spared c d) (hc : c.offset ≠ b.place) (hd : d.offset ≠ b.place) : b.Clear c d := by
  unfold Spared at h
  unfold Clear
  omega

namespace Level

/-- A line comment does not end at the place of another comment. -/
theorem lineComment_apart (h : b.Level c c') : (c.lineComment c.rest.length).offset ≠ b.place := by
  intro hplace
  have hslash := h.beside.peek_at_place (Cursor.lineComment_upto _ _) hplace
  have hend := @Cursor.toDelimiter_end c _ '\n' (Nat.le_refl _)
  rw [← Cursor.lineComment_eq_toDelimiter, hslash, Cursor.not_atEnd_of_peek (by rw [hslash]; decide)] at hend
  cases hend

/-- A piece of white space that spares the comment is one on either side. -/
theorem behindPiece (h : b.Level c c') (hspared : ∀ d, c.behindPiece? = some d → b.Spared c d) :
    Option.Rel b.Beside c.behindPiece? c'.behindPiece? := by
  have hapart := h.apart
  have hline (hwhite : ¬isWhite c.peek = true) (hslashes : (c.peek == '/' && c.peekAt 1 == '/') = true) :
      b.Clear c (c.lineComment c.rest.length) :=
    (hspared _ (by rw [behindPiece?, if_neg hwhite, if_pos hslashes])).clear hapart h.lineComment_apart
  -- with a slash before the place there would be a line comment that goes on over it
  have hnext : c.peek = '/' → c.offset + 1 ≠ b.place := by
    intro hpeek hplace
    have hslash := h.beside.peek_at_place (Cursor.advance_before c).upto hplace
    rw [Cursor.peek_advance] at hslash
    have hclear := hline (by rw [hpeek]; decide) (by rw [hpeek, hslash]; rfl)
    have hbefore := (Cursor.lineComment_before hpeek).offset
    unfold Clear at hclear
    omega
  have hsame (x : Char) : (c.peek == '/' && c'.peekAt 1 == x) = (c.peek == '/' && c.peekAt 1 == x) := by
    by_cases hpeek : c.peek = '/'
    · rw [h.peekAt_one (hnext hpeek)]
    · rw [beq_eq_false_iff_ne.mpr hpeek, Bool.false_and, Bool.false_and]
  have hblock (hwhite : ¬isWhite c.peek = true) (hslashes : ¬(c.peek == '/' && c.peekAt 1 == '/') = true)
      (hopen : (c.peek == '/' && c.peekAt 1 == '*') = true) :
      b.Spared c ((c.skip 2).blockComment c.rest.length) :=
    hspared _ (by rw [behindPiece?, if_neg hwhite, if_neg hslashes, if_pos hopen])
  unfold behindPiece?
  rw [← h.peek, hsame, hsame]
  split
  · exact .some h.advance
  rename_i hwhite
  split
  · rename_i hslashes
    exact .some (h.beside.lineComment (Nat.le_refl _) (Nat.le_refl _) (hline hwhite hslashes)).beside
  rename_i hslashes
  split
  · rename_i hopen
    have hspared := hblock hwhite hslashes hopen
    have hnext := hnext (by simp_all)
    have hopened : (c.skip 2).Upto _ := Cursor.blockComment_upto c.rest.length (c.skip 2)
    have hover : c.offset + 2 ≤ _ := hopened.offset
    unfold Spared at hspared
    have hskip := h.beside.skip (n := 2) (by omega)
    have hclear : ((c.skip 2).blockComment c.rest.length).offset ≤ b.place ∨ b.place < (c.skip 2).offset := by
      change _ ∨ b.place < c.offset + 2
      omega
    exact .some (hskip.blockComment (Cursor.skip_upto c 2).rest_le (Cursor.skip_upto c' 2).rest_le hclear)
  · exact .none

/-- Where an expression ends that spares the comment. -/
theorem expression (h : b.Level c c') {ending : Char} (hspared : b.Spared c (c.expressionEnd ending)) :
    let r := c.toExpressionEnd ending (c.rest.length + 1) 0 false
    let r' := c'.toExpressionEnd ending (c'.rest.length + 1) 0 false
    b.Beside r.1 r'.1 ∧ r.2 = r'.2 ∧ c.textTo r.1 = c'.textTo r'.1 := by
  have hupto : c.Upto (c.expressionEnd ending) := Cursor.toExpressionEnd_upto _ _ _ _ _
  have hstop : (c.expressionEnd ending).offset ≠ b.place := fun hplace =>
    Cursor.toExpressionEnd_end (Nat.lt_succ_self _) (h.beside.peek_at_place hupto hplace)
  have hclear := hspared.clear h.apart hstop
  obtain ⟨hend, hobstacle⟩ := h.beside.toExpressionEnd (Nat.lt_succ_self _) (Nat.lt_succ_self _) hclear
  exact ⟨hend.beside, hobstacle, h.beside.textTo hend.beside hupto (hclear.imp_left Nat.le_of_lt)⟩

/-- What a segment is that spares the comment. -/
theorem segment (h : b.Level c c') (hspared : b.Spared c (Compiling.behindSegment c)) :
    b.Beside (Compiling.behindSegment c) (Compiling.behindSegment c') ∧ c.segmentText = c'.segmentText := by
  have hapart := h.apart
  unfold Compiling.behindSegment at hspared ⊢
  unfold Cursor.segmentText
  rw [← h.peek]
  cases hplain : c.peek.isAlphanum || c.peek == ';' with
  | true =>
    rw [hplain] at hspared
    simp only [Bool.not_true, Bool.false_and, Bool.false_eq_true, if_false, if_true] at hspared ⊢
    have hupto := Cursor.toDelimiter_upto ';' (c.rest.length + 1) c
    have hstop : (c.toDelimiter ';' (c.rest.length + 1)).offset ≠ b.place := fun hplace => by
      have hslash := h.beside.peek_at_place hupto hplace
      have hend := @Cursor.toDelimiter_end c _ ';' (Nat.le_succ _)
      rw [hslash, Cursor.not_atEnd_of_peek (by rw [hslash]; decide)] at hend
      cases hend
    have hclear := hspared.clear hapart hstop
    have hlevel := h.beside.toDelimiter (Nat.le_succ _) (Nat.le_succ _) hclear
    exact ⟨hlevel.beside, h.beside.textTo hlevel.beside hupto (hclear.imp_left Nat.le_of_lt)⟩
  | false =>
    rw [hplain] at hspared
    simp only [Bool.not_false, Bool.true_and, Bool.false_eq_true, if_false] at hspared ⊢
    have hupto := Cursor.toDelimiter_upto c.peek (c.advance.rest.length + 1) c.advance
    have hend := @Cursor.toDelimiter_end c.advance _ c.peek (Nat.le_succ _)
    have hclear : b.Clear c.advance (c.advance.toDelimiter c.peek (c.advance.rest.length + 1)) := by
      generalize c.advance.toDelimiter c.peek (c.advance.rest.length + 1) = stop at hspared hupto hend
      unfold Spared at hspared
      unfold Clear
      change _ ∨ b.place < c.offset + 1
      by_cases hclose : (stop.peek == c.peek) = true
      · rw [if_pos hclose] at hspared
        change ¬(_ ∧ b.place < stop.offset + 1) at hspared
        omega
      · rw [if_neg hclose] at hspared
        have hstop : stop.offset ≠ b.place := fun hplace => by
          have hslash := h.beside.peek_at_place ((Cursor.advance_before c).upto.trans hupto) hplace
          rw [Cursor.not_atEnd_of_peek (by rw [hslash]; decide), Bool.false_or] at hend
          exact hclose hend
        omega
    have hlevel := h.advance.toDelimiter (Nat.le_succ _) (Nat.le_succ _) hclear
    refine ⟨?_, h.advance.textTo hlevel.beside hupto (hclear.imp_left Nat.le_of_lt)⟩
    rw [← hlevel.peek]
    split
    · exact hlevel.skip_one
    · exact hlevel.beside

end Level

/-- White space that spares the comment is skipped on either side, and so is what stands at the place. -/
theorem Beside.skipWhite (h : b.Beside c c')
    (hspared : ∀ d e, c.Skips d → d.behindPiece? = some e → b.Spared d e) : b.Level c.skipWhite c'.skipWhite := by
  induction hn : c.rest.length using Nat.strong_induction_on generalizing c c' with
  | _ n ih =>
    subst hn
    have hnext {d d' : Cursor} (hd : c.behindPiece? = some d) (hbeside : b.Beside d d') :
        b.Level d.skipWhite d'.skipWhite :=
      ih _ (Cursor.behindPiece_shorter hd) hbeside (fun e f he => hspared e f (.next hd he)) rfl
    by_cases hplace : c.offset = b.place
    · obtain ⟨line, rfl, rfl⟩ := h.at_place hplace
      have hbehind : b.Beside ⟨b.after, b.place + b.comment.length, line + b.comment.count lineFeed⟩
          ⟨b.after, b.place + b.white.length, line + b.comment.count lineFeed⟩ :=
        .behind (c := ⟨b.after, b.place, line + b.comment.count lineFeed⟩) (Nat.le_refl _)
      rw [Cursor.skipWhite_of_piece (b.whole b.place line), Cursor.skipWhite_white b.blank, b.lines]
      exact hnext (b.whole b.place line) hbehind
    have hlevel := h.level hplace
    have hpieces := hlevel.behindPiece (hspared c · (.here c))
    generalize hd : c.behindPiece? = piece, hd' : c'.behindPiece? = piece' at hpieces
    cases hpieces with
    | none =>
      rw [Cursor.skipWhite_of_none hd, Cursor.skipWhite_of_none hd']
      exact hlevel
    | some hbeside =>
      rw [Cursor.skipWhite_of_piece hd, Cursor.skipWhite_of_piece hd']
      exact hnext hd hbeside

end Blank

/-! ## Comments -/

/-- A whole comment, and what follows it. -/
inductive WholeComment : List Char → List Char → Prop
  | line {body after : List Char} : '\n' ∉ body → (∀ c ∈ after.head?, c = '\n') →
    WholeComment ('/' :: '/' :: body) after
  | block (body after : List Char) : ¬['*', '/'] <:+: body →
    WholeComment ('/' :: '*' :: (body ++ ['*', '/'])) after

namespace Cursor

variable {c d : Cursor}

theorem behindPiece_within {source : List UInt8} (h : c.Within source) (hd : c.behindPiece? = some d) :
    d.Within source := by
  have hmore := (behindPiece_before hd).2
  unfold behindPiece? at hd
  split at hd
  · cases hd
    exact h.advance hmore
  split at hd
  · cases hd
    exact h.lineComment _
  split at hd
  · rename_i hopen
    have hstar : c.peekAt 1 = '*' := by simp_all
    cases hd
    exact (h.skip (lt_of_peekAt (by rw [hstar]; decide))).blockComment _
  · cases hd

theorem behindPiece_counts (hd : c.behindPiece? = some d) : c.Counts d := by
  unfold behindPiece? at hd
  split at hd
  · cases hd
    exact advance_counts c
  split at hd
  · cases hd
    exact lineComment_counts _ c
  split at hd
  · rename_i hopen
    have hslash : c.peek = '/' := by simp_all
    have hstar : c.peekAt 1 = '*' := by simp_all
    cases hd
    exact (skip_two_counts (by rw [hslash]; decide) (by rw [hstar]; decide)).trans (blockComment_counts _ _)
  · cases hd

/-- The piece that leaves the text behind it is told by what it leaves. -/
theorem behindPiece_eq {piece after : List UInt8} {offset line : Nat}
    (h : ∃ d, (⟨piece ++ after, offset, line⟩ : Cursor).behindPiece? = some d ∧ d.rest = after) :
    (⟨piece ++ after, offset, line⟩ : Cursor).behindPiece? =
      some ⟨after, offset + piece.length, line + piece.count lineFeed⟩ := by
  obtain ⟨d, hd, rfl⟩ := h
  let source := List.replicate offset 0 ++ (piece ++ d.rest)
  have hwithin : (⟨piece ++ d.rest, offset, line⟩ : Cursor).Within source := by
    constructor
    · exact (List.drop_left' (List.length_replicate ..)).symm
    · simp [source]
  have hwithin' := behindPiece_within hwithin hd
  have hrest := congrArg List.length hwithin'.rest
  have hoffset : d.offset = offset + piece.length := by
    have := hwithin'.offset
    simp only [source, List.length_drop, List.length_append, List.length_replicate] at hrest this
    omega
  have hline := (behindPiece_counts hd).line
  rw [lineFeedsTo, hoffset, Nat.add_sub_cancel_left, List.take_left] at hline
  rw [hd, ← hoffset, ← Nat.add_zero (line + _), ← hline]

/-- A whole comment is one piece of white space. -/
theorem behindPiece_comment {comment after : List Char} (h : WholeComment comment after) (offset line : Nat) :
    (⟨bytes comment ++ bytes after, offset, line⟩ : Cursor).behindPiece? =
      some ⟨bytes after, offset + (bytes comment).length, line + (bytes comment).count lineFeed⟩ := by
  apply behindPiece_eq
  generalize hc : (⟨bytes comment ++ bytes after, offset, line⟩ : Cursor) = c
  have hreads : c.Reads (comment ++ after) := by
    rw [Reads, ← hc, bytes_append]
  cases h with
  | @line body after hbody hafter =>
    refine ⟨c.lineComment c.rest.length, ?_, (passes_lineComment (by simpa using hbody) hafter hreads).reads hreads⟩
    rw [behindPiece?, hreads.isWhite_slash, hreads.peek_two (by decide) (by decide)]
    rfl
  | @block body after hbody =>
    have hreads : c.Reads ('/' :: '*' :: (body ++ '*' :: '/' :: after)) := by simpa using hreads
    refine ⟨(c.skip 2).blockComment c.rest.length, ?_, blockComment_opened hbody hreads⟩
    rw [behindPiece?, hreads.isWhite_slash, hreads.peek_ascii (by decide),
      hreads.peekAt_one_ascii (by decide) (by decide)]
    rfl

end Cursor

/-- The lines are those of the text. -/
theorem count_bytes (cs : List Char) : (bytes cs).count lineFeed = cs.count '\n' := by
  induction cs with
  | nil => rfl
  | cons c cs ih =>
    rw [bytes_cons, List.count_append, ih, List.count_cons, Nat.add_comm]
    congr 1
    by_cases hc : c = '\n'
    · rw [hc]
      rfl
    · rw [if_neg (by simpa using hc), List.count_eq_zero]
      intro hfeed
      exact hc (shown_eq (by decide) hfeed rfl)

namespace Blank

/-- White characters in the place of a comment behind some text. -/
def ofComment (before : List Char) {comment white after : List Char} (hcomment : WholeComment comment after)
    (hwhite : ∀ c ∈ white, isWhite c = true) (hne : white ≠ []) (hlines : white.count '\n' = comment.count '\n') :
    Blank where
  place := (bytes before).length
  comment := bytes comment
  white := bytes white
  after := bytes after
  slash := by
    cases hcomment with
    | line => rfl
    | block => rfl
  whole := Cursor.behindPiece_comment hcomment
  blank x hx := by
    obtain ⟨c, hc, hx⟩ := List.mem_flatMap.mp hx
    have hascii := Cursor.isWhite_ascii (hwhite c hc)
    rw [encode_ascii hascii, List.mem_singleton] at hx
    rw [hx, shown_ascii hascii]
    exact hwhite c hc
  some_white hnil := by
    have hle := length_le_bytes white
    rw [hnil] at hle
    exact hne (List.eq_nil_of_length_eq_zero (Nat.le_zero.mp hle))
  lines := by rw [count_bytes, count_bytes, hlines]

end Blank

end HostScript
