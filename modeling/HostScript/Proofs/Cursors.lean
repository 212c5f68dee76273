import HostScript.Proofs.StructuredText
import HostScript.Proofs.Utf8
/-!
# Reading structured text

What the cursor of the compiler does on texts of known shape: it skips a gap, finds the end of a name, and
moves over a balanced expression to the character that ends it. The compiler sees bytes, while the shapes
are told in characters; all it looks for is ASCII, which no byte of another character looks like.
-/

set_option autoImplicit false

namespace HostScript.Cursor

open HostScript.Text HostScript.Structured

variable {c c' c'' : Cursor} {cs cs' : List Char} {a : Char}

/-! ## Cursors before a text -/

/-- The source goes on with the given characters, to its end. -/
def Reads (c : Cursor) (cs : List Char) : Prop := c.rest = bytes cs

/-- The source goes on with them after a gap. -/
def At (c : Cursor) (cs : List Char) : Prop := ∃ g, Gap g ∧ c.Reads (g ++ cs)

/-- From the first cursor to the second one there are the given characters. -/
structure Passes (c : Cursor) (cs : List Char) (c' : Cursor) : Prop where
  rest : c.rest = bytes cs ++ c'.rest
  offset : c'.offset = c.offset + (bytes cs).length

theorem Passes.nil : Passes c [] c := ⟨rfl, rfl⟩

theorem Passes.append (h : Passes c cs c') (h' : Passes c' cs' c'') : Passes c (cs ++ cs') c'' := by
  constructor
  · rw [h.rest, h'.rest, bytes_append, List.append_assoc]
  · rw [h'.offset, h.offset, bytes_append, List.length_append, Nat.add_assoc]

theorem Passes.reads (h : Passes c cs c') (hc : c.Reads (cs ++ cs')) : c'.Reads cs' := by
  have he := h.rest.symm.trans hc
  rw [bytes_append] at he
  exact List.append_cancel_left he

theorem Passes.textTo (h : Passes c cs c') : c.textTo c' = String.ofList cs := by
  rw [Cursor.textTo, h.rest, h.offset, Nat.add_sub_cancel_left, List.take_left, decode_bytes]

theorem Reads.at (h : c.Reads cs) : c.At cs := ⟨[], .nil, h⟩

theorem At.of_gap {g : List Char} (hg : Gap g) (h : c.At (g ++ cs)) : c.At cs := by
  obtain ⟨g₀, hg₀, h⟩ := h
  exact ⟨g₀ ++ g, hg₀.append hg, by rwa [List.append_assoc]⟩

theorem reads_nil (h : c.Reads []) : c.atEnd = true ∧ c.peek = '\x00' := by
  have hr : c.rest = [] := h
  simp [atEnd, peek, peekAt, hr]

theorem Reads.not_atEnd (h : c.Reads (a :: cs)) : c.atEnd = false := by
  have hr : c.rest = _ := h
  obtain ⟨lead, tail, he, -⟩ := leading_encode a []
  rw [bytes_cons, he] at hr
  simp [atEnd, hr]

theorem peek_of_rest {b : UInt8} {rest : List UInt8} (h : c.rest = b :: rest) : c.peek = shown b := by
  rw [peek, peekAt, h]
  rfl

theorem Reads.peek_ascii (ha : a.toNat < 128) (h : c.Reads (a :: cs)) : c.peek = a := by
  rw [Reads, bytes_cons_ascii ha] at h
  rw [peek_of_rest h, shown_ascii ha]

/-- What is only true of ASCII characters is true of the byte ahead if it is of the character. -/
theorem Reads.peek_class {P : Char → Bool} (hP : ∀ x, P x = true → x.toNat < 128) (h : c.Reads (a :: cs)) :
    P c.peek = P a := by
  by_cases ha : a.toNat < 128
  · rw [h.peek_ascii ha]
  · have hfalse : P a = false := Bool.eq_false_iff.mpr fun h => ha (hP a h)
    obtain ⟨lead, tail, he, -⟩ := leading_encode a []
    have hr : c.rest = _ := h
    rw [bytes_cons, he] at hr
    rw [hfalse, peek_of_rest hr]
    have hhigh : 128 ≤ (shown lead).toNat := by
      rw [toNat_shown]
      exact encode_high ha lead (by simp [he])
    exact Bool.eq_false_iff.mpr fun h => absurd (hP _ h) (by omega)

theorem Reads.peek_beq {x : Char} (hx : x.toNat < 128) (h : c.Reads (a :: cs)) : (c.peek == x) = (a == x) :=
  h.peek_class (P := (· == x)) fun y hy => by rwa [eq_of_beq hy]

theorem isNameChar_ascii {x : Char} (hx : isNameChar x = true) : x.toNat < 128 := by
  rcases isNameChar_iff.mp hx with h | rfl | h
  · have := isAlpha_iff.mp h
    omega
  · decide
  · have := isDigit_iff.mp h
    omega

theorem isAlphanum_ascii {x : Char} (hx : x.isAlphanum = true) : x.toNat < 128 := by
  refine isNameChar_ascii (isNameChar_iff.mpr ?_)
  rcases Bool.or_eq_true_iff.mp hx with hx | hx
  · exact .inl hx
  · exact .inr (.inr hx)

theorem isWhite_ascii {x : Char} (hx : isWhite x = true) : x.toNat < 128 := by
  have hascii := of_isWhite (P := fun x => x.toNat < 128) rfl hx
  exact of_decide_eq_true hascii

theorem Reads.isWhite_peek (h : c.Reads cs) (hcs : ∀ a ∈ cs.head?, isWhite a = false) : isWhite c.peek = false := by
  cases cs with
  | nil =>
    rw [(reads_nil h).2]
    rfl
  | cons a cs => rw [h.peek_class fun x => isWhite_ascii, hcs a rfl]

/-- The second byte ahead, if the first one is a whole character. -/
theorem Reads.peekAt_one {x : Char} (hx : x.toNat < 128) (ha : a.toNat < 128) (h : c.Reads (a :: cs))
    (hcs : ∀ b ∈ cs.head?, b ≠ x) (hnul : x ≠ '\x00') : c.peekAt 1 ≠ x := by
  rw [Reads, bytes_cons_ascii ha] at h
  have hnext : c.peekAt 1 = (⟨bytes cs, 0, 0⟩ : Cursor).peek := by
    rw [peek, peekAt, peekAt, h]
    rfl
  rw [hnext]
  cases cs with
  | nil => exact fun h => hnul h.symm
  | cons b cs =>
    have hb : Reads ⟨bytes (b :: cs), 0, 0⟩ (b :: cs) := rfl
    have hbeq := hb.peek_beq hx
    rw [beq_eq_false_iff_ne.mpr (hcs b rfl)] at hbeq
    exact beq_eq_false_iff_ne.mp hbeq

theorem Reads.peekAt_one_ascii {b : Char} (ha : a.toNat < 128) (hb : b.toNat < 128) (h : c.Reads (a :: b :: cs)) :
    c.peekAt 1 = b := by
  rw [Reads, bytes_cons_ascii ha, bytes_cons_ascii hb] at h
  rw [peekAt, h]
  exact shown_ascii hb

theorem Reads.peek_two {b : Char} (ha : a.toNat < 128) (hb : b.toNat < 128) (h : c.Reads (a :: b :: cs)) :
    (c.peek == a && c.peekAt 1 == b) = true := by
  rw [h.peek_ascii ha, h.peekAt_one_ascii ha hb, beq_self_eq_true, beq_self_eq_true, Bool.and_true]

/-- Two characters are ahead only if the text starts with both; beyond the end there is NUL. -/
theorem Reads.peek_apart {x y : Char} (hx : x.toNat < 128) (hy : y.toNat < 128) (hxnul : x ≠ '\x00') (hynul : y ≠ '\x00')
    (hno : ¬[x, y] <+: cs) (h : c.Reads cs) : (c.peek == x && c.peekAt 1 == y) = false := by
  rw [Bool.and_eq_false_iff, beq_eq_false_iff_ne, beq_eq_false_iff_ne]
  cases cs with
  | nil =>
    left
    rw [(reads_nil h).2]
    exact hxnul.symm
  | cons a cs =>
    refine Classical.or_iff_not_imp_left.mpr fun hpeek => ?_
    obtain rfl : a = x := eq_of_beq ((h.peek_beq hx).symm.trans (beq_iff_eq.mpr (Classical.not_not.mp hpeek)))
    refine h.peekAt_one hy hx (fun b hb => ?_) hynul
    rintro rfl
    cases cs with
    | nil => cases hb
    | cons b cs =>
      cases hb
      exact hno ⟨cs, rfl⟩

/-! ## Moving -/

theorem passes_advance (ha : a.toNat < 128) (h : c.Reads (a :: cs)) : Passes c [a] c.advance := by
  have hr : c.rest = _ := h
  rw [bytes_cons_ascii ha] at hr
  constructor
  · rw [advance, hr, bytes_cons_ascii ha]
    rfl
  · rw [bytes_cons_ascii ha]
    rfl

theorem passes_skip (cs : List Char) {n : Nat} (hn : (bytes cs).length = n) (h : c.Reads (cs ++ cs')) :
    Passes c cs (c.skip n) := by
  have hr : c.rest = _ := h
  constructor
  · rw [skip, hr, bytes_append, ← hn, List.drop_left]
  · rw [skip, hn]

theorem Reads.advance (ha : a.toNat < 128) (h : c.Reads (a :: cs)) : c.advance.Reads cs :=
  (passes_advance ha h).reads h

/-! ## Delimiters -/

theorem toDelimiter_stops {d : Char} (h : (c.atEnd || c.peek == d) = true) (n : Nat) : toDelimiter d n c = c := by
  cases n with
  | zero => rfl
  | succ n => rw [toDelimiter, if_pos h]

/-- The way to a delimiter goes over all bytes that are not shown as it. -/
theorem toDelimiter_rest {d : Char} {rest : List UInt8} (hrest : ∀ b ∈ rest.head?, shown b = d) (bs : List UInt8) :
    ∀ (n : Nat) (c : Cursor), c.rest = bs ++ rest → (∀ b ∈ bs, shown b ≠ d) → bs.length ≤ n →
      (toDelimiter d n c).rest = rest ∧ (toDelimiter d n c).offset = c.offset + bs.length := by
  induction bs with
  | nil =>
    intro n c hc _ _
    have hstop : (c.atEnd || c.peek == d) = true := by
      cases rest with
      | nil => simp [atEnd, hc]
      | cons b rest => simp [peek_of_rest hc, hrest b rfl]
    rw [toDelimiter_stops hstop]
    exact ⟨hc, rfl⟩
  | cons b bs ih =>
    intro n c hc hbs hn
    cases n with
    | zero => cases hn
    | succ n =>
      have hgo : ¬(c.atEnd || c.peek == d) = true := by
        simp [atEnd, hc, peek_of_rest hc, hbs b (List.mem_cons_self ..)]
      have hadvance : c.advance.rest = bs ++ rest := by
        rw [Cursor.advance, hc]
        rfl
      obtain ⟨hto, hoffset⟩ :=
        ih n c.advance hadvance (fun b hb => hbs b (List.mem_cons_of_mem _ hb)) (Nat.le_of_succ_le_succ hn)
      rw [toDelimiter, if_neg hgo]
      refine ⟨hto, hoffset.trans ?_⟩
      rw [Cursor.advance, List.length_cons]
      dsimp only
      omega

/-- A text without the delimiter is passed as a whole, up to the delimiter or the end. -/
theorem passes_toDelimiter {d : Char} {text : List Char} (hd : d.toNat < 128) (htext : d ∉ text)
    (hcs : ∀ a ∈ cs.head?, a = d) {n : Nat} (hn : c.rest.length ≤ n) (h : c.Reads (text ++ cs)) :
    Passes c text (toDelimiter d n c) := by
  have hrest : c.rest = bytes text ++ bytes cs := by
    rw [← bytes_append]
    exact h
  have hlength : (bytes text).length ≤ n := by
    rw [hrest, List.length_append] at hn
    omega
  obtain ⟨hto, hoffset⟩ := toDelimiter_rest (shown_head? hd hcs) _ n c hrest (shown_ne_of_notMem hd htext) hlength
  exact ⟨by rw [hto, hrest], hoffset⟩

/-! ## Gaps -/

/-- A line comment goes to the line feed as any text goes to its delimiter. -/
theorem lineComment_eq_toDelimiter (n : Nat) (c : Cursor) : lineComment n c = toDelimiter '\n' n c := by
  induction n generalizing c with
  | zero => rfl
  | succ n ih => rw [lineComment, toDelimiter, ih]

/-- A line comment ends before the line feed. -/
theorem passes_lineComment {body : List Char} (hbody : '\n' ∉ body) (hcs : ∀ a ∈ cs.head?, a = '\n')
    (h : c.Reads (body ++ cs)) : Passes c body (lineComment c.rest.length c) := by
  rw [lineComment_eq_toDelimiter]
  exact passes_toDelimiter (by decide) hbody hcs (Nat.le_refl _) h

/-- A block comment does not end within a character other than its closing ones. -/
theorem blockComment_skips {rest : List UInt8} (bs : List UInt8) :
    ∀ (n : Nat) (c : Cursor), c.rest = bs ++ rest → (∀ b ∈ bs, shown b ≠ '*') →
      ∃ c', c'.rest = rest ∧ blockComment (bs.length + n) c = blockComment n c' := by
  induction bs with
  | nil => exact fun n c hc _ => ⟨c, hc, by rw [List.length_nil, Nat.zero_add]⟩
  | cons b bs ih =>
    intro n c hc hbs
    have hadvance : c.advance.rest = bs ++ rest := by
      rw [Cursor.advance, hc]
      rfl
    obtain ⟨c', hc', he⟩ := ih n c.advance hadvance fun b hb => hbs b (List.mem_cons_of_mem _ hb)
    refine ⟨c', hc', ?_⟩
    have hend : c.atEnd = false := by simp [atEnd, hc]
    have hgo : (c.peek == '*' && c.peekAt 1 == '/') = false := by
      simp [peek_of_rest hc, hbs b (List.mem_cons_self ..)]
    rw [List.length_cons, Nat.add_right_comm, blockComment, hend, hgo]
    exact he

theorem blockComment_reads {body : List Char} (hbody : ¬['*', '/'] <:+: body) :
    ∀ (n : Nat) (c : Cursor), c.Reads (body ++ '*' :: '/' :: cs) → (bytes body).length < n →
      (blockComment n c).Reads cs := by
  induction body with
  | nil =>
    intro n c hc hn
    cases n with
    | zero => cases hn
    | succ n =>
      rw [blockComment, hc.not_atEnd, hc.peek_two (by decide) (by decide)]
      exact (passes_skip ['*', '/'] rfl hc).reads hc
  | cons a body ih =>
    intro n c hc hn
    have hinner : ¬['*', '/'] <:+: body := fun h => hbody (h.trans (List.suffix_cons a body).isInfix)
    by_cases ha : a.toNat < 128
    · rw [bytes_cons_ascii ha, List.length_cons] at hn
      cases n with
      | zero => cases hn
      | succ n =>
        -- a star does not end the comment, unless the slash comes next
        have hgo : (c.peek == '*' && c.peekAt 1 == '/') = false := by
          refine hc.peek_apart (by decide) (by decide) (by decide) (by decide) fun hclose => ?_
          obtain ⟨hstar, hslash⟩ := List.cons_prefix_cons.mp hclose
          cases body with
          | nil => exact absurd (List.cons_prefix_cons.mp hslash).1 (by decide)
          | cons b body => exact hbody ⟨[], body, by rw [hstar, (List.cons_prefix_cons.mp hslash).1]; rfl⟩
        rw [blockComment, hc.not_atEnd, hgo]
        exact ih hinner n c.advance (hc.advance ha) (by omega)
    · rw [bytes_cons, List.length_append] at hn
      have hrest : c.rest = String.utf8EncodeChar a ++ bytes (body ++ '*' :: '/' :: cs) := by
        rw [← bytes_cons]
        exact hc
      have hstar : ∀ b ∈ String.utf8EncodeChar a, shown b ≠ '*' := by
        intro b hb he
        exact ha (by rw [shown_eq (by decide) hb he]; decide)
      obtain ⟨c', hc', he⟩ := blockComment_skips _ (n - (String.utf8EncodeChar a).length) c hrest hstar
      rw [Nat.add_sub_cancel' (by omega)] at he
      rw [he]
      exact ih hinner _ c' hc' (by omega)

/-- A block comment ends behind what closes it. -/
theorem blockComment_opened {body : List Char} (hbody : ¬['*', '/'] <:+: body)
    (h : c.Reads ('/' :: '*' :: (body ++ '*' :: '/' :: cs))) : (blockComment c.rest.length (c.skip 2)).Reads cs := by
  have hopen : Passes c ['/', '*'] (c.skip 2) := passes_skip _ rfl h
  have hreads : (c.skip 2).Reads (body ++ '*' :: '/' :: cs) := hopen.reads h
  refine blockComment_reads hbody _ _ hreads ?_
  rw [hopen.rest, hreads, List.length_append, bytes_append, List.length_append]
  simp only [bytes_cons_ascii (c := '*') (by decide), bytes_cons_ascii (c := '/') (by decide), List.length_cons]
  omega

/-! ### One round of skipping white space -/

theorem skipWhiteWithin_solid (hcs : Solid cs) (h : c.Reads cs) (n : Nat) : skipWhiteWithin n c = c := by
  obtain ⟨hwhite, hline, hblock⟩ := hcs
  cases n with
  | zero => rfl
  | succ n =>
    rw [skipWhiteWithin, h.isWhite_peek hwhite, h.peek_apart (by decide) (by decide) (by decide) (by decide) hline,
      h.peek_apart (by decide) (by decide) (by decide) (by decide) hblock]
    rfl

theorem skipWhiteWithin_white (ha : isWhite a = true) (h : c.Reads (a :: cs)) (n : Nat) :
    skipWhiteWithin (n + 1) c = skipWhiteWithin n c.advance := by
  rw [skipWhiteWithin, h.peek_class fun x => isWhite_ascii, ha, if_pos rfl]

theorem Reads.isWhite_slash (h : c.Reads ('/' :: cs)) : isWhite c.peek = false := by
  rw [h.peek_ascii (by decide)]
  rfl

theorem skipWhiteWithin_line (h : c.Reads ('/' :: '/' :: cs)) (n : Nat) :
    skipWhiteWithin (n + 1) c = skipWhiteWithin n (lineComment c.rest.length c) := by
  rw [skipWhiteWithin, h.isWhite_slash, h.peek_two (by decide) (by decide)]
  rfl

theorem skipWhiteWithin_block (h : c.Reads ('/' :: '*' :: cs)) (n : Nat) :
    skipWhiteWithin (n + 1) c = skipWhiteWithin n (blockComment c.rest.length (c.skip 2)) := by
  rw [skipWhiteWithin, h.isWhite_slash, h.peek_ascii (by decide), h.peekAt_one_ascii (by decide) (by decide)]
  rfl

/-- Less is left behind a text that is not empty. -/
theorem Reads.rest_lt (hcs : cs ≠ []) (h : c.Reads (cs ++ cs')) (h' : c'.Reads cs') :
    c'.rest.length < c.rest.length := by
  have hle := length_le_bytes cs
  have hpos := List.length_pos_iff.mpr hcs
  rw [h, h', bytes_append, List.length_append]
  omega

/-- Skipping white space takes a gap as a whole and stops after it. -/
theorem skipWhiteWithin_reads {g : List Char} (hg : Gap g) (hcs : Solid cs) :
    ∀ (n : Nat) (c : Cursor), c.Reads (g ++ cs) → c.rest.length < n → (skipWhiteWithin n c).Reads cs := by
  induction hg with
  | nil =>
    intro n c hc _
    rw [skipWhiteWithin_solid hcs hc]
    exact hc
  | @white a g ha _ ih =>
    intro n c hc hn
    have hnext := hc.advance (isWhite_ascii ha)
    have hshort := Reads.rest_lt (List.cons_ne_nil a []) hc hnext
    obtain ⟨n, rfl⟩ := Nat.exists_eq_succ_of_ne_zero (Nat.ne_zero_of_lt hn)
    rw [skipWhiteWithin_white ha hc]
    exact ih n _ hnext (by omega)
  | @line body g hbody _ ih =>
    intro n c hc hn
    have hc : c.Reads ('/' :: '/' :: body ++ '\n' :: (g ++ cs)) := by simpa using hc
    have hpass := passes_lineComment (by simpa using hbody) (by simp) hc
    -- the comment ends before its line feed, which goes as white space in the next round
    have hfeed := hpass.reads hc
    have hnext := hfeed.advance (by decide)
    have hshort := Reads.rest_lt (List.cons_ne_nil _ _) hc hfeed
    have hshort' := Reads.rest_lt (List.cons_ne_nil '\n' []) hfeed hnext
    obtain ⟨n, rfl⟩ : ∃ m, n = m + 2 := ⟨n - 2, by omega⟩
    rw [skipWhiteWithin_line hc, skipWhiteWithin_white rfl hfeed]
    exact ih n _ hnext (by omega)
  | @block body g hbody _ ih =>
    intro n c hc hn
    have hc : c.Reads ('/' :: '*' :: (body ++ '*' :: '/' :: (g ++ cs))) := by simpa using hc
    have hnext := blockComment_opened hbody hc
    have hshort := Reads.rest_lt (List.cons_ne_nil '/' ('*' :: (body ++ ['*', '/']))) (by simpa using hc) hnext
    obtain ⟨n, rfl⟩ := Nat.exists_eq_succ_of_ne_zero (Nat.ne_zero_of_lt hn)
    rw [skipWhiteWithin_block hc]
    exact ih n _ hnext (by omega)

theorem At.skipWhite (h : c.At cs) (hcs : Solid cs) : c.skipWhite.Reads cs := by
  obtain ⟨g, hg, hc⟩ := h
  exact skipWhiteWithin_reads hg hcs _ c hc (Nat.lt_succ_self _)

/-! ## Names -/

theorem takeWhile_name {name : List Char} (hname : ∀ a ∈ name, isNameChar a = true) (hcs : Apart cs) :
    (bytes (name ++ cs)).takeWhile (fun b => isNameChar (shown b)) = bytes name := by
  induction name with
  | nil =>
    cases cs with
    | nil => rfl
    | cons a cs =>
      obtain ⟨lead, tail, he, -⟩ := leading_encode a []
      have hreads : Reads ⟨bytes (a :: cs), 0, 0⟩ (a :: cs) := rfl
      have hrest : bytes (a :: cs) = lead :: (tail ++ bytes cs) := by
        rw [bytes_cons, he]
        rfl
      have hlead : isNameChar (shown lead) = false := by
        rw [← peek_of_rest (c := ⟨bytes (a :: cs), 0, 0⟩) hrest, hreads.peek_class fun x => isNameChar_ascii]
        exact hcs a rfl
      rw [List.nil_append, hrest, List.takeWhile_cons, hlead]
      rfl
  | cons a name ih =>
    have ha := hname a (List.mem_cons_self ..)
    have hascii := isNameChar_ascii ha
    have hrest := ih fun b hb => hname b (List.mem_cons_of_mem _ hb)
    rw [List.cons_append, bytes_cons_ascii hascii, bytes_cons_ascii hascii, List.takeWhile_cons, shown_ascii hascii, ha]
    simp only [if_true, hrest]

theorem nameLength_eq {name : List Char} (hname : ∀ a ∈ name, isNameChar a = true) (hcs : Apart cs)
    (h : c.Reads (name ++ cs)) : c.nameLength = (bytes name).length := by
  rw [nameLength, show c.rest = _ from h]
  exact congrArg List.length (takeWhile_name hname hcs)

/-- The name at a cursor. -/
theorem passes_name {name : List Char} (hname : ∀ a ∈ name, isNameChar a = true) (hcs : Apart cs)
    (h : c.Reads (name ++ cs)) : Passes c name (c.skip c.nameLength) :=
  passes_skip _ (nameLength_eq hname hcs h).symm h

/-! ## Expressions -/

/-- Looking for the end of an expression comes from one place to another, whatever was allowed for it. -/
def Scans (ending : Char) (depth : Nat) (quoted : Bool) (c : Cursor) (depth' : Nat) (quoted' : Bool) (c' : Cursor) :
    Prop :=
  ∀ n, c.rest.length < n → ∃ m, c'.rest.length < m ∧
    toExpressionEnd ending n depth quoted c = toExpressionEnd ending m depth' quoted' c'

variable {ending : Char} {depth depth' depth'' : Nat} {quoted quoted' quoted'' : Bool}

theorem Scans.rfl : Scans ending depth quoted c depth quoted c := fun n hn => ⟨n, hn, Eq.refl _⟩

theorem Scans.trans (h : Scans ending depth quoted c depth' quoted' c')
    (h' : Scans ending depth' quoted' c' depth'' quoted'' c'') : Scans ending depth quoted c depth'' quoted'' c'' := by
  intro n hn
  obtain ⟨m, hm, he⟩ := h n hn
  obtain ⟨k, hk, he'⟩ := h' m hm
  exact ⟨k, hk, he.trans he'⟩

/-- A single step over one byte. -/
theorem scans_advance {b : UInt8} {rest : List UInt8} (hc : c.rest = b :: rest)
    (h : ∀ n, toExpressionEnd ending (n + 1) depth quoted c = toExpressionEnd ending n depth' quoted' c.advance) :
    Scans ending depth quoted c depth' quoted' c.advance := by
  intro n hn
  cases n with
  | zero => cases hn
  | succ n =>
    refine ⟨n, ?_, h n⟩
    rw [hc, List.length_cons] at hn
    rw [Cursor.advance, hc]
    exact Nat.lt_of_succ_lt_succ hn

section Scans

variable (ending depth quoted)

/-- Bytes that mean nothing to the search. -/
theorem scans_bytes {rest : List UInt8} (bs : List UInt8) :
    ∀ c : Cursor, c.rest = bs ++ rest →
      (∀ b ∈ bs, ∀ x ∈ (if quoted then ['"', '\\'] else ['"', '(', ')', ';']), shown b ≠ x) →
      ∃ c', (c'.rest = rest ∧ c'.offset = c.offset + bs.length) ∧ Scans ending depth quoted c depth quoted c' := by
  induction bs with
  | nil => exact fun c hc _ => ⟨c, ⟨hc, Eq.refl _⟩, .rfl⟩
  | cons b bs ih =>
    intro c hc hbs
    have hadvance : c.advance.rest = bs ++ rest := by
      rw [Cursor.advance, hc]
      rfl
    obtain ⟨c', ⟨hrest, hoffset⟩, hscan⟩ := ih c.advance hadvance fun b hb => hbs b (List.mem_cons_of_mem _ hb)
    refine ⟨c', ⟨hrest, ?_⟩, (scans_advance hc fun n => ?_).trans hscan⟩
    · rw [hoffset, Cursor.advance, List.length_cons]
      dsimp only
      omega
    · have hb := hbs b (List.mem_cons_self ..)
      have hend : c.atEnd = false := by simp [atEnd, hc]
      rw [toExpressionEnd, hend, peek_of_rest hc]
      cases quoted with
      | true =>
        obtain ⟨hquote, hslash⟩ : shown b ≠ '"' ∧ shown b ≠ '\\' := by simpa using hb
        simp [bne_iff_ne.mpr hquote, hslash]
      | false =>
        obtain ⟨h1, h2, h3, h4⟩ : shown b ≠ '"' ∧ shown b ≠ '(' ∧ shown b ≠ ')' ∧ shown b ≠ ';' := by simpa using hb
        simp [h1, h2, h3, h4]

/-- A character that means nothing to the search. -/
theorem scans_plain (h : c.Reads (a :: cs)) (ha : a ∉ (if quoted then ['"', '\\'] else ['"', '(', ')', ';'])) :
    ∃ c', Passes c [a] c' ∧ Scans ending depth quoted c depth quoted c' := by
  have hrest : c.rest = String.utf8EncodeChar a ++ bytes cs := by
    rw [← bytes_cons]
    exact h
  have hbytes : bytes [a] = String.utf8EncodeChar a := by rw [bytes_cons, bytes_nil, List.append_nil]
  obtain ⟨c', ⟨hrest', hoffset⟩, hscan⟩ := scans_bytes ending depth quoted _ c hrest
    fun b hb x hx he => ha (by
      have hascii : x.toNat < 128 := by
        cases quoted <;> simp at hx <;> rcases hx with rfl | rfl | rfl | rfl <;> decide
      rwa [shown_eq hascii hb he])
  exact ⟨c', ⟨by rw [hbytes, hrest', hrest], by rw [hbytes, hoffset]⟩, hscan⟩

end Scans

/-- An ASCII character that changes the state of the search. -/
theorem scans_ascii (ha : a.toNat < 128) (h : c.Reads (a :: cs))
    (hstep : ∀ n, toExpressionEnd ending (n + 1) depth quoted c = toExpressionEnd ending n depth' quoted' c.advance) :
    ∃ c', Passes c [a] c' ∧ Scans ending depth quoted c depth' quoted' c' := by
  have hrest : c.rest = _ := h
  rw [bytes_cons_ascii ha] at hrest
  exact ⟨c.advance, passes_advance ha h, scans_advance hrest hstep⟩

/-- A backslash quotes the first byte of what follows it. -/
theorem scans_escape_byte (ending : Char) (depth : Nat) {lead : UInt8} {rest : List UInt8}
    (hrest : c.rest = UInt8.ofNat '\\'.toNat :: lead :: rest) (hnul : shown lead ≠ '\x00') :
    Scans ending depth true c depth true (c.skip 1).advance := by
  have hskip : (c.skip 1).advance.rest = rest := by
    rw [Cursor.advance, skip, hrest]
    rfl
  have hpeek : c.peek = '\\' := peek_of_rest hrest
  have hahead : c.peekAt 1 = shown lead := by
    rw [peekAt, hrest]
    rfl
  have hend : c.atEnd = false := by simp [atEnd, hrest]
  intro n hn
  cases n with
  | zero => cases hn
  | succ n =>
    rw [hrest, List.length_cons, List.length_cons] at hn
    refine ⟨n, by rw [hskip]; omega, ?_⟩
    rw [toExpressionEnd, hend, hpeek, hahead]
    simp [hnul]

/-- A backslash and the character it quotes. -/
theorem scans_escape (ending : Char) (depth : Nat) (h : c.Reads ('\\' :: a :: cs)) :
    ∃ c', Passes c ['\\', a] c' ∧ Scans ending depth true c depth true c' := by
  obtain ⟨lead, tail, he, -⟩ := leading_encode a []
  have hrest : c.rest = UInt8.ofNat '\\'.toNat :: lead :: (tail ++ bytes cs) := by
    rw [show c.rest = _ from h, bytes_cons_ascii (by decide), bytes_cons, he]
    rfl
  by_cases hnul : shown lead = '\x00'
  · -- a backslash before NUL quotes nothing, and NUL means nothing
    obtain rfl : a = '\x00' := shown_eq (by decide) (by simp [he]) hnul
    have hstep : ∀ n, toExpressionEnd ending (n + 1) depth true c = toExpressionEnd ending n depth true c.advance := by
      intro n
      rw [toExpressionEnd, h.not_atEnd, h.peek_ascii (by decide), h.peekAt_one_ascii (by decide) (by decide)]
      rfl
    obtain ⟨c₁, hc₁, hscan₁⟩ := scans_ascii (by decide) h hstep
    obtain ⟨c₂, hc₂, hscan₂⟩ := scans_plain ending depth true (hc₁.reads h) (by simp)
    exact ⟨c₂, hc₁.append hc₂, hscan₁.trans hscan₂⟩
  · have hskip : (c.skip 1).advance.rest = tail ++ bytes cs := by
      rw [Cursor.advance, skip, hrest]
      rfl
    -- what the character has behind its first byte means nothing
    obtain ⟨c₁, ⟨hrest₁, hoffset⟩, hscan⟩ := scans_bytes ending depth true tail _ hskip
      fun b hb x hx hbx => by
        have hval := encode_tail_high he b hb
        rw [← toNat_shown, hbx] at hval
        revert hval
        have hx : x = '"' ∨ x = '\\' := by simpa using hx
        rcases hx with rfl | rfl <;> decide
    have hbytes : bytes ['\\', a] = UInt8.ofNat '\\'.toNat :: lead :: tail := by
      rw [bytes_cons_ascii (by decide), bytes_cons, he, bytes_nil, List.append_nil]
    refine ⟨c₁, ⟨?_, ?_⟩, (scans_escape_byte ending depth hrest hnul).trans hscan⟩
    · rw [hbytes, hrest, hrest₁]
      rfl
    · rw [hoffset, hbytes, Cursor.advance, skip, List.length_cons, List.length_cons]
      dsimp only
      omega

theorem scans_quoted (ending : Char) (depth : Nat) {q : List Char} (hq : Quoted q) :
    ∀ c : Cursor, c.Reads (q ++ cs) → ∃ c', Passes c q c' ∧ Scans ending depth true c depth false c' := by
  induction hq with
  | close =>
    intro c h
    refine scans_ascii (by decide) h fun n => ?_
    rw [toExpressionEnd, h.not_atEnd, h.peek_ascii (by decide)]
    rfl
  | plain hquote hslash _ ih =>
    intro c h
    obtain ⟨c₁, hc₁, hscan₁⟩ := scans_plain ending depth true h (by simp [hquote, hslash])
    obtain ⟨c₂, hc₂, hscan₂⟩ := ih c₁ (hc₁.reads h)
    exact ⟨c₂, hc₁.append hc₂, hscan₁.trans hscan₂⟩
  | escape a _ ih =>
    intro c h
    obtain ⟨c₁, hc₁, hscan₁⟩ := scans_escape ending depth h
    obtain ⟨c₂, hc₂, hscan₂⟩ := ih c₁ (hc₁.reads h)
    exact ⟨c₂, hc₁.append hc₂, hscan₁.trans hscan₂⟩

/-- The search comes over a balanced text as if there were nothing. -/
theorem scans_balanced (ending : Char) {inside : Bool} {text : List Char} (ht : Balanced inside text) :
    ∀ (cs : List Char) (depth : Nat) (c : Cursor), c.Reads (text ++ cs) → (inside = true → 0 < depth) →
      ∃ c', Passes c text c' ∧ Scans ending depth false c depth false c' := by
  induction ht with
  | nil => exact fun _ _ c _ _ => ⟨c, .nil, .rfl⟩
  | plain ha _ ih =>
    intro cs depth c h hdepth
    obtain ⟨c₁, hc₁, hscan₁⟩ := scans_plain ending depth false h ha
    obtain ⟨c₂, hc₂, hscan₂⟩ := ih cs depth c₁ (hc₁.reads h) hdepth
    exact ⟨c₂, hc₁.append hc₂, hscan₁.trans hscan₂⟩
  | semicolon _ ih =>
    intro cs depth c h hdepth
    have hpos := hdepth rfl
    have hstep : ∀ n, toExpressionEnd ending (n + 1) depth false c = toExpressionEnd ending n depth false c.advance := by
      intro n
      rw [toExpressionEnd, h.not_atEnd, h.peek_ascii (by decide)]
      simp [Nat.ne_of_gt hpos]
    obtain ⟨c₁, hc₁, hscan₁⟩ := scans_ascii (by decide) h hstep
    obtain ⟨c₂, hc₂, hscan₂⟩ := ih cs depth c₁ (hc₁.reads h) hdepth
    exact ⟨c₂, hc₁.append hc₂, hscan₁.trans hscan₂⟩
  | @quoted inside q text hq _ ih =>
    intro cs depth c h hdepth
    have hstep : ∀ n, toExpressionEnd ending (n + 1) depth false c = toExpressionEnd ending n depth true c.advance := by
      intro n
      rw [toExpressionEnd, h.not_atEnd, h.peek_ascii (by decide)]
      rfl
    obtain ⟨c₁, hc₁, hscan₁⟩ := scans_ascii (by decide) h hstep
    have h₁ : c₁.Reads (q ++ (text ++ cs)) := hc₁.reads (by simpa using h)
    obtain ⟨c₂, hc₂, hscan₂⟩ := scans_quoted ending depth hq c₁ h₁
    obtain ⟨c₃, hc₃, hscan₃⟩ := ih cs depth c₂ (hc₂.reads h₁) hdepth
    exact ⟨c₃, hc₁.append (hc₂.append hc₃), hscan₁.trans (hscan₂.trans hscan₃)⟩
  | @group inside g text _ _ ihg ih =>
    intro cs depth c h hdepth
    have hopen : ∀ n,
        toExpressionEnd ending (n + 1) depth false c = toExpressionEnd ending n (depth + 1) false c.advance := by
      intro n
      rw [toExpressionEnd, h.not_atEnd, h.peek_ascii (by decide)]
      rfl
    obtain ⟨c₁, hc₁, hscan₁⟩ := scans_ascii (by decide) h hopen
    have h₁ : c₁.Reads (g ++ ')' :: (text ++ cs)) := hc₁.reads (by simpa using h)
    obtain ⟨c₂, hc₂, hscan₂⟩ := ihg (')' :: (text ++ cs)) (depth + 1) c₁ h₁ fun _ => Nat.succ_pos _
    have h₂ := hc₂.reads h₁
    have hclose : ∀ n,
        toExpressionEnd ending (n + 1) (depth + 1) false c₂ = toExpressionEnd ending n depth false c₂.advance := by
      intro n
      rw [toExpressionEnd, h₂.not_atEnd, h₂.peek_ascii (by decide)]
      rfl
    obtain ⟨c₃, hc₃, hscan₃⟩ := scans_ascii (by decide) h₂ hclose
    obtain ⟨c₄, hc₄, hscan₄⟩ := ih cs depth c₃ (hc₃.reads h₂) hdepth
    exact ⟨c₄, hc₁.append (hc₂.append (hc₃.append hc₄)), hscan₁.trans (hscan₂.trans (hscan₃.trans hscan₄))⟩

/-- The end of a balanced text is found at the character after it that ends expressions. -/
theorem toExpressionEnd_reads {text : List Char} (ht : Balanced false text) (he : ending = ';' ∨ ending = ')')
    (h : c.Reads (text ++ ending :: cs)) :
    ∃ c', Passes c text c' ∧ toExpressionEnd ending (c.rest.length + 1) 0 false c = (c', none) := by
  obtain ⟨c', hc', hscan⟩ := scans_balanced ending ht _ 0 c h (by simp)
  obtain ⟨n, hn, hto⟩ := hscan _ (Nat.lt_succ_self _)
  have h' := hc'.reads h
  refine ⟨c', hc', hto.trans ?_⟩
  cases n with
  | zero => cases hn
  | succ n =>
    have hascii : ending.toNat < 128 := by rcases he with rfl | rfl <;> decide
    rw [toExpressionEnd, h'.not_atEnd, h'.peek_ascii hascii]
    rcases he with rfl | rfl <;> rfl

end HostScript.Cursor
