import HostScript.Proofs.Cursors
import HostScript.Proofs.Paths
/-!
# Compiling structured programs

The compiler turns the text of a structured program into its code, however it is written. Each step of the
compiler is told by what it does from a state: what it gives, and the state it leaves. A statement leaves
the cursor behind its text, up to a gap, and adds its code to the program.
-/

set_option autoImplicit false

namespace HostScript.Compiler

open HostScript.Text HostScript.Structured

/-! ## What steps do -/

/-- The step gives a result and leaves a state. -/
def Does {δ α : Type} (m : Compile δ α) (s : Compilation δ) (a : α) (t : Compilation δ) : Prop :=
  m.run.run s = (.ok a, t)

variable {ξ δ α β : Type} {decls : Declarations ξ δ} {statement : Compile δ Unit} {s t u : Compilation δ}
  {c : Cursor} {cs r : List Char}

theorem Does.bind {m : Compile δ α} {f : α → Compile δ β} {a : α} {b : β} (h : Does m s a t) (h' : Does (f a) t b u) :
    Does (m >>= f) s b u := by
  rw [Does, ExceptT.run_bind, StateT.run_bind, show m.run.run s = _ from h]
  exact h'

theorem Does.pure (a : α) (s : Compilation δ) : Does (Pure.pure a) s a s := rfl

theorem Does.get (s : Compilation δ) : Does (MonadState.get : Compile δ (Compilation δ)) s s s := rfl

theorem Does.modify (f : Compilation δ → Compilation δ) (s : Compilation δ) :
    Does (MonadState.modifyGet fun s => ((), f s) : Compile δ PUnit) s ⟨⟩ (f s) := rfl

/-- The state with the cursor moved. -/
def move (s : Compilation δ) (c : Cursor) : Compilation δ := { s with cursor := c }

@[simp]
theorem move_cursor (s : Compilation δ) (c : Cursor) : (move s c).cursor = c := rfl

@[simp]
theorem move_declared (s : Compilation δ) (c : Cursor) : (move s c).declared = s.declared := rfl

@[simp]
theorem move_move (s : Compilation δ) (c c' : Cursor) : move (move s c) c' = move s c' := rfl

theorem skipWhite_does (s : Compilation δ) : Does skipWhite s () (move s s.cursor.skipWhite) := rfl

theorem getCursor_does (s : Compilation δ) : Does getCursor s s.cursor s := rfl

theorem setCursor_does (s : Compilation δ) (c : Cursor) : Does (setCursor c) s () (move s c) := rfl

/-! ## Reading -/

theorem solid_of_nameChar {a : Char} (ha : isNameChar a = true) : Solid (a :: cs) := by
  refine solid_cons (Bool.eq_false_iff.mpr fun hw => ?_) ?_
  · rw [isNameChar_of_isWhite hw] at ha
    cases ha
  · rintro rfl
    revert ha
    decide

theorem name_does {name : List Char} (hne : name ≠ []) (hname : ∀ a ∈ name, isNameChar a = true) (hcs : Apart cs)
    (h : s.cursor.At (name ++ cs)) :
    ∃ c, c.Reads cs ∧ Does Compiler.name s (String.ofList name) (move s c) := by
  obtain ⟨a, name, rfl⟩ := List.exists_cons_of_ne_nil hne
  have hread := h.skipWhite (solid_of_nameChar (hname a (List.mem_cons_self ..)))
  have hpass := Cursor.passes_name hname hcs hread
  refine ⟨_, hpass.reads hread, (skipWhite_does s).bind ((getCursor_does _).bind ?_)⟩
  -- a length of zero would be an error
  have hpos : s.cursor.skipWhite.nameLength ≠ 0 := by
    have := length_le_bytes (a :: name)
    rw [Cursor.nameLength_eq hname hcs hread]
    exact Nat.ne_of_gt (Nat.lt_of_lt_of_le (Nat.succ_pos _) this)
  rw [← hpass.textTo]
  dsimp only [move_cursor]
  rw [if_neg hpos]
  exact (setCursor_does _ _).bind (.pure _ _)

theorem nameChar_of_mem_takeWhile (text : List Char) : ∀ a ∈ text.takeWhile isNameChar, isNameChar a = true :=
  List.all_eq_true.mp List.all_takeWhile

/-- The name that a text starts with ends within it, or before what comes after it. -/
theorem apart_dropWhile (text : List Char) (hcs : Apart cs) : Apart (text.dropWhile isNameChar ++ cs) := by
  intro a ha
  have hnot := List.head?_dropWhile_not isNameChar text
  cases hd : text.dropWhile isNameChar with
  | nil => exact hcs a (by simpa [hd] using ha)
  | cons b bs =>
    rw [hd] at ha hnot
    cases ha
    exact hnot

theorem expect_does {wanted : Char} (kind : ErrorKind) (hascii : wanted.toNat < 128) (hsolid : Solid (wanted :: cs))
    (h : s.cursor.At (wanted :: cs)) : ∃ c, c.Reads cs ∧ Does (expect wanted kind) s () (move s c) := by
  have hread := h.skipWhite hsolid
  have hbytes : (bytes [wanted]).length = 1 := by rw [bytes_cons_ascii hascii]; rfl
  refine ⟨_, (Cursor.passes_skip [wanted] hbytes hread).reads hread,
    (skipWhite_does s).bind ((getCursor_does _).bind ?_)⟩
  have hpeek : ¬(s.cursor.skipWhite.peek != wanted) = true := by simp [hread.peek_ascii hascii]
  split
  · rename_i hne
    exact absurd hne hpeek
  · rfl

/-- Only the white space after an expression is trimmed. -/
theorem trimEnd_white {text w : List Char} (htext : ∀ a ∈ text.getLast?, isBlank a = false) (hw : White w) :
    trimEnd (String.ofList (text ++ w)) = String.ofList text := by
  have hblank : ∀ a ∈ w.reverse, isBlank a = true := fun a ha => of_isWhite rfl (hw a (List.mem_reverse.mp ha))
  have hhead : ∀ a ∈ text.reverse.head?, ¬isBlank a = true := by
    rw [List.head?_reverse]
    exact fun a ha => by simp [htext a ha]
  have hdrop : text.reverse.dropWhile isBlank = text.reverse := by
    cases hr : text.reverse with
    | nil => rfl
    | cons a as => exact List.dropWhile_cons_of_neg (hhead a (by simp [hr]))
  rw [trimEnd, dropEndWhile, String.toList_ofList, List.reverse_append, List.dropWhile_append_of_pos hblank, hdrop,
    List.reverse_reverse]

/-- The text of an expression, up to the character that ends it. -/
theorem expression_does {ending : Char} {text w : List Char} (htext : Proper text) (hw : White w)
    (he : ending = ';' ∨ ending = ')') (h : s.cursor.At (text ++ w ++ ending :: cs)) :
    ∃ c, c.Reads (ending :: cs) ∧ Does (expression ending) s (String.ofList text) (move s c) := by
  have hending : Solid (ending :: cs) := by
    rcases he with rfl | rfl
    · exact solid_cons rfl (by decide)
    · exact solid_cons rfl (by decide)
  -- without a text the white space goes with the gap before it
  obtain ⟨w', hw', hread⟩ : ∃ w', White w' ∧ s.cursor.skipWhite.Reads (text ++ w' ++ ending :: cs) := by
    by_cases hne : text = []
    · subst hne
      obtain ⟨g, hg, hread⟩ := h
      rw [List.nil_append, ← List.append_assoc] at hread
      exact ⟨[], by simp [White], Cursor.At.skipWhite ⟨g ++ w, hg.append hw.gap, hread⟩ hending⟩
    · refine ⟨w, hw, h.skipWhite ?_⟩
      rw [List.append_assoc]
      refine htext.solid.append hne fun a ha => ?_
      have hwhite : isWhite a = true ∨ a = ending := by
        cases w with
        | nil => exact .inr (by cases ha; rfl)
        | cons b w =>
          cases ha
          exact .inl (hw _ (List.mem_cons_self ..))
      rcases hwhite with hwhite | rfl
      · constructor <;> rintro rfl <;> revert hwhite <;> decide
      · rcases he with rfl | rfl <;> decide
  obtain ⟨c, hc, hend⟩ := Cursor.toExpressionEnd_reads (htext.balanced.append hw'.balanced) he hread
  refine ⟨c, hc.reads hread, (skipWhite_does s).bind ((getCursor_does _).bind ?_)⟩
  dsimp only [move_cursor]
  rw [hend]
  refine (setCursor_does _ _).bind ?_
  rw [← trimEnd_white htext.trimmed hw', ← hc.textTo]
  rfl

/-! ## Starting a statement -/

theorem nameChar_of_start {a : Char} (ha : isNameStart a = true) : isNameChar a = true := by simp [isNameChar, ha]

/-- What the compiler sees where a name starts. -/
theorem peek_of_start {a : Char} (ha : isNameStart a = true) (h : c.Reads (a :: cs)) :
    c.atEnd = false ∧ (c.peek == ';') = false ∧ (c.peek == '\x7b') = false ∧ (c.peek == ':') = false ∧
      isNameStart c.peek = true := by
  have hother : ∀ x : Char, x.toNat < 128 → isNameStart x = false → (c.peek == x) = false := by
    intro x hx hstart
    rw [h.peek_beq hx, beq_eq_false_iff_ne]
    rintro rfl
    rw [ha] at hstart
    cases hstart
  refine ⟨h.not_atEnd, hother _ (by decide) (by decide), hother _ (by decide) (by decide),
    hother _ (by decide) (by decide), ?_⟩
  rw [h.peek_class fun x hx => Cursor.isNameChar_ascii (nameChar_of_start hx), ha]

theorem nameChar_of_keyword (k : Keyword) : ∀ a ∈ k.name.toList, isNameChar a = true :=
  List.all_eq_true.mp (by cases k <;> rfl)

/-- How a statement goes on behind the name that it starts with. This is told of the statements only that do not read
the name again. -/
def Goes (decls : Declarations ξ δ) (statement : Compile δ Unit) (name : String) (s : Compilation δ) (pos : SourcePos)
    (c : Cursor) (t : Compilation δ) : Prop :=
  match decls.meaning s.declared name with
  | .keyword k => Does (keyword decls statement k pos) (move s c) () t
  | .external x => Does (externalStatement decls x) (move s c) () t
  | _ => False

variable (decls) in
/-- A statement that starts with a name. -/
theorem statementWith_name {name : List Char} (hstart : name.head?.any isNameStart = true)
    (hname : ∀ a ∈ name, isNameChar a = true) (hcs : Apart cs) (h : s.cursor.At (name ++ cs)) :
    ∃ c pos, c.Reads cs ∧
      ∀ t, Goes decls statement (String.ofList name) s pos c t → Does (statementWith decls statement) s () t := by
  obtain ⟨a, name, rfl⟩ : ∃ a name', name = a :: name' := by
    cases name with
    | nil => cases hstart
    | cons a name => exact ⟨a, name, rfl⟩
  have hstart : isNameStart a = true := hstart
  have hread : s.cursor.skipWhite.Reads (a :: name ++ cs) :=
    h.skipWhite (solid_of_nameChar (nameChar_of_start hstart))
  obtain ⟨hend, hsemi, hbrace, hcolon, hpeek⟩ := peek_of_start hstart hread
  obtain ⟨c, hc, hdoes⟩ := name_does (s := move s s.cursor.skipWhite) (List.cons_ne_nil a name) hname hcs hread.at
  refine ⟨c, s.cursor.skipWhite.pos, hc, fun t ht => ?_⟩
  refine (skipWhite_does s).bind ((getCursor_does _).bind ?_)
  simp only [move_cursor, hend, hsemi, hbrace, hcolon, hpeek, Bool.false_eq_true, if_false, if_true]
  refine hdoes.bind ((Does.get _).bind ?_)
  rw [move_move, move_declared]
  unfold Goes at ht
  split at ht
  · rename_i k hk
    rw [hk]
    exact ht
  · rename_i x hx
    rw [hx]
    exact ht
  · exact ht.elim

/-- A statement of the compiler's own starts with its keyword. -/
theorem statementWith_keyword {k : Keyword} (hk : decls.meaning s.declared k.name = .keyword k) (hcs : Apart cs)
    (h : s.cursor.At (k.name.toList ++ cs)) :
    ∃ c pos, c.Reads cs ∧
      ∀ t, Does (keyword decls statement k pos) (move s c) () t → Does (statementWith decls statement) s () t := by
  have hstart : k.name.toList.head?.any isNameStart = true := by cases k <;> decide
  obtain ⟨c, pos, hc, hgoes⟩ := statementWith_name decls hstart (nameChar_of_keyword k) hcs h
  refine ⟨c, pos, hc, fun t ht => hgoes t ?_⟩
  rw [Goes, String.ofList_toList, hk]
  exact ht

/-- An expression statement is read again from its start. -/
theorem statementWith_expression {text : List Char} (hstart : text.head?.any isNameStart = true)
    (hmeaning : decls.meaning s.declared (firstName text) = .expression) (hcs : Apart cs)
    (h : s.cursor.At (text ++ cs)) :
    ∃ c pos, c.Reads (text ++ cs) ∧
      ∀ t, Does (expressionStatement pos) (move s c) () t → Does (statementWith decls statement) s () t := by
  obtain ⟨a, text', rfl⟩ : ∃ a text', text = a :: text' := by
    cases text with
    | nil => cases hstart
    | cons a text' => exact ⟨a, text', rfl⟩
  have hstart : isNameStart a = true := hstart
  have hchar := nameChar_of_start hstart
  have hread := h.skipWhite (solid_of_nameChar hchar)
  obtain ⟨hend, hsemi, hbrace, hcolon, hpeek⟩ := peek_of_start hstart hread
  -- the name ends within the text, or the text is a name and ends before what follows
  have hsplit : a :: text' ++ cs = (a :: text').takeWhile isNameChar ++ ((a :: text').dropWhile isNameChar ++ cs) := by
    rw [← List.append_assoc, List.takeWhile_append_dropWhile]
  have hne : (a :: text').takeWhile isNameChar ≠ [] := by simp [hchar]
  obtain ⟨c, -, hdoes⟩ := name_does (s := move s s.cursor.skipWhite) hne (nameChar_of_mem_takeWhile _)
    (apart_dropWhile _ hcs) (by rw [← hsplit]; exact hread.at)
  refine ⟨s.cursor.skipWhite, s.cursor.skipWhite.pos, hread, fun t ht => ?_⟩
  refine (skipWhite_does s).bind ((getCursor_does _).bind ?_)
  simp only [move_cursor, hend, hsemi, hbrace, hcolon, hpeek, Bool.false_eq_true, if_false, if_true]
  refine hdoes.bind ((Does.get _).bind ?_)
  simp only [move_declared, ← firstName.eq_1, hmeaning]
  exact (setCursor_does _ _).bind ht

/-- A block starts with its brace. -/
theorem statementWith_block (h : s.cursor.At ('\x7b' :: cs)) :
    ∃ c n, c.Reads cs ∧ cs.length < n ∧
      ∀ t, Does (block statement n) (move s c) () t → Does (statementWith decls statement) s () t := by
  have hread := h.skipWhite (solid_cons rfl (by decide))
  have hpeek : s.cursor.skipWhite.peek = '\x7b' := hread.peek_ascii (by decide)
  have hlen : cs.length < s.cursor.skipWhite.rest.length + 1 := by
    rw [show s.cursor.skipWhite.rest = _ from hread]
    have := length_le_bytes ('\x7b' :: cs)
    rw [List.length_cons] at this
    omega
  refine ⟨s.cursor.skipWhite.skip 1, _, (Cursor.passes_skip ['\x7b'] rfl hread).reads hread, hlen, fun t ht => ?_⟩
  refine (skipWhite_does s).bind ((getCursor_does _).bind ?_)
  simp only [move_cursor, hread.not_atEnd, hpeek, Bool.false_eq_true, if_false, if_true, beq_self_eq_true,
    show ('\x7b' == ';') = false from rfl]
  exact (setCursor_does _ _).bind ht

/-! ## What follows a statement -/

/-- No `else` stands here. -/
def NoElse (decls : Declarations ξ δ) (d : δ) (cs : List Char) : Prop :=
  cs.takeWhile isNameChar ≠ [] → decls.meaning d (firstName cs) ≠ .keyword .else_

variable {d : δ}

theorem takeWhile_word {name : List Char} (hname : ∀ a ∈ name, isNameChar a = true) (hcs : Apart cs) :
    (name ++ cs).takeWhile isNameChar = name := by
  rw [List.takeWhile_append_of_pos hname]
  cases cs with
  | nil => exact List.append_nil _
  | cons a cs => rw [List.takeWhile_cons_of_neg (by simp [hcs a rfl]), List.append_nil]

theorem apart_gap {g : List Char} (hg : Gap g) (hcs : Apart cs) : Apart (g ++ cs) := by
  cases hg with
  | nil => exact hcs
  | white ha =>
    rintro _ ⟨⟩
    exact isNameChar_of_isWhite ha
  | line =>
    rintro _ ⟨⟩
    decide
  | block =>
    rintro _ ⟨⟩
    decide

theorem apart_cons {a : Char} (ha : isNameChar a = false) : Apart (a :: cs) := by
  rintro _ ⟨⟩
  exact ha

/-- A word that means something else than `else`. -/
theorem first_word {name : List Char} (hne : name ≠ []) (hname : ∀ a ∈ name, isNameChar a = true) (hcs : Apart cs)
    (hmeaning : decls.meaning d (String.ofList name) ≠ .keyword .else_) :
    Solid (name ++ cs) ∧ NoElse decls d (name ++ cs) := by
  constructor
  · obtain ⟨a, name, rfl⟩ := List.exists_cons_of_ne_nil hne
    exact solid_of_nameChar (hname a (List.mem_cons_self ..))
  · intro _
    rwa [firstName, takeWhile_word hname hcs]

theorem first_keyword {k : Keyword} (hk : decls.meaning d k.name = .keyword k) (helse : k ≠ .else_) (hcs : Apart cs) :
    Solid (k.name.toList ++ cs) ∧ NoElse decls d (k.name.toList ++ cs) := by
  refine first_word (by cases k <;> decide) (nameChar_of_keyword k) hcs ?_
  rw [String.ofList_toList, hk]
  simpa using helse

theorem first_sign {a : Char} (hwhite : isWhite a = false) (hname : isNameChar a = false) (hslash : a ≠ '/') :
    Solid (a :: cs) ∧ NoElse decls d (a :: cs) := by
  refine ⟨solid_cons hwhite hslash, fun hne => ?_⟩
  simp [hname] at hne

theorem head_apart {k : Keyword} {text : String} {h : List Char} (hh : Head k text h) :
    ∃ g g' w g'', (Gap g ∧ Gap g' ∧ White w ∧ Gap g'') ∧
      h = k.name.toList ++ (g ++ '(' :: (g' ++ text.toList ++ w ++ ')' :: g'')) := by
  obtain ⟨hg, hg', hw, hg''⟩ := hh
  exact ⟨_, _, _, _, ⟨hg, hg', hw, hg''⟩, by rw [List.append_assoc]⟩

/-- Where a written statement starts, there is neither a gap nor an `else`. -/
theorem first_statement {close : List Char} {p : Part .statement} (h : Written close p cs) (hp : p.Meant decls d)
    (hwords : Keywords decls d) : Solid (cs ++ r) ∧ NoElse decls d (cs ++ r) := by
  have hword : ∀ {k : Keyword} {rest : List Char}, k ∈ [Keyword.if_, .while_, .break_, .continue_] → Apart rest →
      Solid (k.name.toList ++ rest) ∧ NoElse decls d (k.name.toList ++ rest) := by
    intro k rest hk hrest
    refine first_keyword (hwords k ?_) ?_ hrest
    · simp only [List.mem_cons, List.not_mem_nil, or_false] at hk ⊢
      rcases hk with hk | hk | hk | hk <;> simp [hk]
    · rintro rfl
      simp at hk
  have hhead : ∀ {k : Keyword} {text : String} {h rest : List Char}, k ∈ [Keyword.if_, .while_, .break_, .continue_] →
      Head k text h → Solid (h ++ rest) ∧ NoElse decls d (h ++ rest) := by
    intro k text h rest hk hh
    obtain ⟨g, g', w, g'', ⟨hg, -⟩, rfl⟩ := head_apart hh
    rw [List.append_assoc, List.append_assoc]
    exact hword hk (apart_gap hg (apart_cons (by decide)))
  cases h with
  | @expression _ text w hw =>
    obtain ⟨-, hstart, hmeaning⟩ := hp
    have hend : Apart (w ++ ([';'] ++ r)) := apart_gap hw.gap (apart_cons (by decide))
    have hne : text.toList.takeWhile isNameChar ≠ [] := by
      cases ht : text.toList with
      | nil => simp [ht] at hstart
      | cons a as =>
        have ha : isNameStart a = true := by simpa [ht] using hstart
        simp [nameChar_of_start ha]
    have hfirst := first_word hne (nameChar_of_mem_takeWhile _) (apart_dropWhile text.toList hend)
      (show decls.meaning d (firstName text.toList) ≠ .keyword .else_ by simp [hmeaning])
    rwa [← List.append_assoc, List.takeWhile_append_dropWhile, ← List.append_assoc, ← List.append_assoc] at hfirst
  | block => exact first_sign (by decide) (by decide) (by decide)
  | ifThen hh =>
    rw [List.append_assoc]
    exact hhead (by simp) hh
  | ifElse hh =>
    simp only [List.append_assoc]
    exact hhead (by simp) hh
  | while_ hh =>
    rw [List.append_assoc]
    exact hhead (by simp) hh
  | break_ hg =>
    rw [List.append_assoc, List.append_assoc]
    exact hword (by simp) (apart_gap hg (apart_cons (by decide)))
  | continue_ hg =>
    rw [List.append_assoc, List.append_assoc]
    exact hword (by simp) (apart_gap hg (apart_cons (by decide)))

/-- The same holds where the statements of a block go on, or end. -/
theorem first_block {close : List Char} {b : Part .block} (h : Written close b cs) (hb : b.Meant decls d)
    (hwords : Keywords decls d) (hclose : close = ['\x7d'] ∨ close = [] ∧ r = []) :
    Solid (cs ++ r) ∧ NoElse decls d (cs ++ r) := by
  cases h with
  | nil =>
    rcases hclose with rfl | ⟨rfl, rfl⟩
    · exact first_sign (by decide) (by decide) (by decide)
    · exact ⟨⟨by simp, by simp, by simp⟩, fun hne => absurd rfl hne⟩
  | cons hs _ _ =>
    rw [List.append_assoc, List.append_assoc]
    exact first_statement hs hb.1 hwords

/-! ## Emitting -/

/-- The state with more instructions, and the cursor moved. -/
def reach (s : Compilation δ) (new : List Instruction) (c : Cursor) : Compilation δ :=
  ⟨c, ⟨s.program.instructions ++ new, s.program.labels⟩, s.declared⟩

section Reach

variable (s : Compilation δ) (new new' : List Instruction) (c c' : Cursor)

theorem move_eq_reach : move s c = reach s [] c := by simp [reach, move]

theorem reach_reach : reach (reach s new c) new' c' = reach s (new ++ new') c' := by simp [reach]

theorem reach_size : (reach s new c).program.size = s.program.size + new.length := List.length_append

theorem nextIp_does : Does nextIp (reach s new c) (s.program.size + new.length) (reach s new c) := by
  rw [← reach_size s new c]
  rfl

theorem emit_does (opcode : Opcode) (target : Option Int) (text : String) (pos : SourcePos) :
    Does (emit opcode target text pos) (reach s new c) (s.program.size + new.length)
      (reach s (new ++ [⟨opcode, target.getD ((s.program.size + new.length : Nat) + 1), text, pos⟩]) c) := by
  rw [← reach_size s new c, ← reach_reach s new _ c c]
  rfl

theorem setTarget_does (before : List Instruction) {after : List Instruction} {i : Instruction} {ip : Nat}
    (hip : ip = s.program.size + before.length) (target : Nat) :
    Does (setTarget ip target) (reach s (before ++ i :: after) c) ()
      (reach s (before ++ { i with target := target } :: after) c) := by
  have hmodify : ∀ l : List Instruction, (l ++ i :: after).modify l.length (fun i => { i with target := target }) =
      l ++ { i with target := target } :: after := by
    intro l
    induction l with
    | nil => rfl
    | cons j l ih => exact congrArg (j :: ·) ih
  have hl := hmodify (s.program.instructions ++ before)
  rw [List.append_assoc, List.append_assoc, List.length_append] at hl
  subst hip
  exact congrArg (fun l => ((.ok (), ⟨c, ⟨l, s.program.labels⟩, s.declared⟩) : Except Stop Unit × Compilation δ)) hl

theorem patchFrom_does (before : List Instruction) {after : List Instruction} {ip : Nat}
    (hip : ip = s.program.size + before.length) (f : Instruction → Instruction) :
    Does (patchFrom ip f) (reach s (before ++ after) c) () (reach s (before ++ after.map f) c) := by
  have hl : (s.program.instructions ++ (before ++ after)).take ip ++
      ((s.program.instructions ++ (before ++ after)).drop ip).map f =
        s.program.instructions ++ (before ++ after.map f) := by
    have hlen : ip = (s.program.instructions ++ before).length := hip.trans List.length_append.symm
    rw [← List.append_assoc, List.take_left' hlen.symm, List.drop_left' hlen.symm, List.append_assoc]
  exact congrArg (fun l => ((.ok (), ⟨c, ⟨l, s.program.labels⟩, s.declared⟩) : Except Stop Unit × Compilation δ)) hl

end Reach

/-- The step comes up to a gap before the given text, and adds some code to the program. -/
def Compiles (m : Compile δ Unit) (s : Compilation δ) (r : List Char) (code : List Instruction) : Prop :=
  ∃ c new, Does m s () (reach s new c) ∧ c.At r ∧ new.map erase = code

/-! ## Expressions and conditions -/

theorem expressionStatement_compiles {text : String} {w : List Char} (pos : SourcePos) (htext : Proper text.toList)
    (hw : White w) (h : s.cursor.At (text.toList ++ w ++ ';' :: r)) :
    Compiles (expressionStatement pos) s r ((Part.expression text).code s.program.size) := by
  obtain ⟨c, hc, hexpr⟩ := expression_does htext hw (.inl rfl) h
  obtain ⟨c', hc', hdelim⟩ := expect_does (s := move s c) .expectedDelimiter (by decide)
    (solid_cons rfl (by decide)) hc.at
  rw [String.ofList_toList] at hexpr
  rw [move_move, move_eq_reach s c'] at hdelim
  exact ⟨c', _, hexpr.bind (hdelim.bind ((emit_does _ _ _ _ _ _ _).bind (.pure _ _))), hc'.at, rfl⟩

/-- A condition leaves the cursor before what comes after its parentheses. -/
theorem condition_does {text : String} {g g' w : List Char} (pos : SourcePos) (htext : Proper text.toList) (hg : Gap g)
    (hg' : Gap g') (hw : White w) (h : s.cursor.At (g ++ '(' :: (g' ++ text.toList ++ w ++ ')' :: r))) :
    ∃ c, c.Reads r ∧ Does (condition pos) s s.program.size
      (reach s [⟨.jumpIfZero, s.program.size + 1, text, pos⟩] c) := by
  obtain ⟨c₁, hc₁, hparen⟩ := expect_does .expectedLeftParenthesis (by decide)
    (solid_cons rfl (by decide)) (h.of_gap hg)
  obtain ⟨c₂, hc₂, hexpr⟩ := expression_does (s := move s c₁) htext hw (.inr rfl)
    ⟨g', hg', by simpa only [List.append_assoc, move_cursor] using hc₁⟩
  rw [String.ofList_toList] at hexpr
  refine ⟨c₂.skip 1, (Cursor.passes_skip [')'] rfl hc₂).reads hc₂, hparen.bind (hexpr.bind ?_)⟩
  have hemit := emit_does s [] (c₂.skip 1) .jumpIfZero none text pos
  rw [← move_eq_reach] at hemit
  exact (Does.modify _ _).bind hemit

/-! ## The word `else` -/

theorem elseFollows_does_not (hsolid : Solid r) (hr : NoElse decls s.declared r) (h : s.cursor.At r) :
    ∃ c, c.Reads r ∧ Does (elseFollows decls) s false (move s c) := by
  have hread := h.skipWhite hsolid
  refine ⟨_, hread, (skipWhite_does s).bind ((getCursor_does _).bind ?_)⟩
  have hnil : Apart [] := by simp [Apart]
  have hrest : Apart (r.dropWhile isNameChar) := by simpa using apart_dropWhile r hnil
  have hsplit : s.cursor.skipWhite.Reads (r.takeWhile isNameChar ++ r.dropWhile isNameChar) := by
    rwa [List.takeWhile_append_dropWhile]
  dsimp only [move_cursor]
  split
  · exact .pure _ _
  · rename_i hpos
    have hne : r.takeWhile isNameChar ≠ [] := by
      intro hnil
      rw [Cursor.nameLength_eq (nameChar_of_mem_takeWhile r) hrest hsplit, hnil] at hpos
      exact hpos rfl
    refine (Does.get _).bind ?_
    rw [(Cursor.passes_name (nameChar_of_mem_takeWhile r) hrest hsplit).textTo]
    split
    · rename_i hmeaning
      exact absurd hmeaning (hr hne)
    · exact .pure _ _

theorem elseFollows_does (helse : decls.meaning s.declared Keyword.else_.name = .keyword .else_) (hr : Apart r)
    (h : s.cursor.At (Keyword.else_.name.toList ++ r)) :
    ∃ c, c.Reads r ∧ Does (elseFollows decls) s true (move s c) := by
  have hname := nameChar_of_keyword .else_
  have hread : s.cursor.skipWhite.Reads (Keyword.else_.name.toList ++ r) :=
    h.skipWhite (solid_of_nameChar (a := 'e') (by decide))
  have hpass := Cursor.passes_name hname hr hread
  refine ⟨_, hpass.reads hread, (skipWhite_does s).bind ((getCursor_does _).bind ?_)⟩
  have hpos : ¬s.cursor.skipWhite.nameLength = 0 := by
    rw [Cursor.nameLength_eq hname hr hread]
    decide
  dsimp only [move_cursor]
  rw [if_neg hpos]
  refine (Does.get _).bind ?_
  rw [hpass.textTo, String.ofList_toList, move_declared, helse]
  exact (setCursor_does _ _).bind (.pure _ _)

/-! ## Conditions and loops -/

theorem erase_claim (start stop : Nat) (i : Instruction) : erase (claim start stop i) = claim start stop (erase i) := by
  obtain ⟨opcode, target, text, pos⟩ := i
  cases opcode <;> rfl

theorem map_erase_claim (start stop : Nat) (code : List Instruction) :
    (code.map (claim start stop)).map erase = (code.map erase).map (claim start stop) := by
  simp [erase_claim]

section Bodies

variable {text : String} {g g' w : List Char} {p q : Part .statement} (pos : SourcePos) (htext : Proper text.toList)
  (hg : Gap g) (hg' : Gap g') (hw : White w)

include htext hg hg' hw

/-- The test of a condition or loop, and the body behind it, which is compiled wherever it stands. -/
theorem body_does (h : s.cursor.At (g ++ '(' :: (g' ++ text.toList ++ w ++ ')' :: cs)))
    (hbody : ∀ new c, c.At cs → Compiles statement (reach s new c) r (p.code (s.program.size + new.length))) :
    ∃ c c' new, Does (condition pos) s s.program.size
        (reach s [⟨.jumpIfZero, s.program.size + 1, text, pos⟩] c) ∧
      Does statement (reach s [⟨.jumpIfZero, s.program.size + 1, text, pos⟩] c) ()
        (reach s (⟨.jumpIfZero, s.program.size + 1, text, pos⟩ :: new) c') ∧
      c'.At r ∧ new.map erase = p.code (s.program.size + 1) ∧ new.length = p.size := by
  obtain ⟨c, hc, hcond⟩ := condition_does pos htext hg hg' hw h
  obtain ⟨c', new, hdoes, hc', hnew⟩ := hbody [⟨.jumpIfZero, s.program.size + 1, text, pos⟩] c hc.at
  rw [reach_reach] at hdoes
  exact ⟨c, c', new, hcond, hdoes, hc', hnew, length_of_erase hnew⟩

/-- A loop, given that its body is compiled wherever it stands. -/
theorem whileStatement_compiles (h : s.cursor.At (g ++ '(' :: (g' ++ text.toList ++ w ++ ')' :: cs)))
    (hbody : ∀ new c, c.At cs → Compiles statement (reach s new c) r (p.code (s.program.size + new.length))) :
    Compiles (whileStatement statement pos) s r ((Part.while_ text p).code s.program.size) := by
  obtain ⟨c₁, c₂, new, hcond, hdoes, hc₂, hnew, hlen⟩ := body_does pos htext hg hg' hw h hbody
  let start := s.program.size
  let stop := start + p.size + 2
  let back : Instruction := ⟨.jump, start, "", c₂.pos⟩
  have hemit := emit_does s (⟨.jumpIfZero, start + 1, text, pos⟩ :: new) c₂ .jump (some start) "" c₂.pos
  have hnext := nextIp_does s (⟨.jumpIfZero, start + 1, text, pos⟩ :: new ++ [back]) c₂
  rw [show s.program.size + _ = stop by simp [hlen, stop, start]; omega] at hnext
  have hset : Does (setTarget start stop) (reach s (⟨.jumpIfZero, start + 1, text, pos⟩ :: new ++ [back]) c₂) ()
      (reach s (⟨.jumpIfZero, stop, text, pos⟩ :: (new ++ [back])) c₂) := setTarget_does s c₂ [] rfl stop
  -- the jump back is searched as well, but there is nothing to claim in it
  have hpatch : Does (patchFrom (start + 1) (claim start stop))
      (reach s (⟨.jumpIfZero, stop, text, pos⟩ :: (new ++ [back])) c₂) ()
      (reach s (⟨.jumpIfZero, stop, text, pos⟩ :: (new ++ [back]).map (claim start stop)) c₂) :=
    patchFrom_does s c₂ [_] rfl _
  refine ⟨c₂, _, hcond.bind (hdoes.bind ((getCursor_does _).bind (hemit.bind (hnext.bind (hset.bind hpatch))))), hc₂,
    ?_⟩
  rw [List.map_cons, map_erase_claim, List.map_append, hnew, List.map_append]
  rfl

/-- A condition without an `else`. -/
theorem ifThen_compiles (h : s.cursor.At (g ++ '(' :: (g' ++ text.toList ++ w ++ ')' :: cs)))
    (hbody : ∀ new c, c.At cs → Compiles statement (reach s new c) r (p.code (s.program.size + new.length)))
    (hsolid : Solid r) (hr : NoElse decls s.declared r) :
    Compiles (ifStatement decls statement pos) s r ((Part.ifThen text p).code s.program.size) := by
  obtain ⟨c₁, c₂, new, hcond, hdoes, hc₂, hnew, hlen⟩ := body_does pos htext hg hg' hw h hbody
  let start := s.program.size
  let stop := start + 1 + p.size
  have hnext := nextIp_does s (⟨.jumpIfZero, start + 1, text, pos⟩ :: new) c₂
  rw [show s.program.size + _ = stop by simp only [List.length_cons, hlen, stop, start]; omega] at hnext
  have hset : Does (setTarget start stop) (reach s (⟨.jumpIfZero, start + 1, text, pos⟩ :: new) c₂) ()
      (reach s (⟨.jumpIfZero, stop, text, pos⟩ :: new) c₂) := setTarget_does s c₂ [] rfl stop
  -- a jump to the next instruction, emitted before it is known that there is no `else`
  have hemit := emit_does s (⟨.jumpIfZero, stop, text, pos⟩ :: new) c₂ .jump none "" c₂.pos
  obtain ⟨c₃, hc₃, helse⟩ := elseFollows_does_not (s := reach s _ c₂) hsolid hr hc₂
  refine ⟨c₃, _, hcond.bind (hdoes.bind (hnext.bind (hset.bind ((getCursor_does _).bind (hemit.bind
    (helse.bind (.pure _ _))))))), hc₃.at, ?_⟩
  rw [List.map_append, List.map_cons, hnew]
  have htarget : ((s.program.size + (new.length + 1) : Nat) : Int) + 1 = (s.program.size + p.size + 2 : Nat) := by
    rw [hlen]
    omega
  rw [Part.code, ← htarget]
  rfl

/-- A condition with an `else`: the test goes to it, and what is before it goes beyond. -/
theorem ifElse_compiles {cs' : List Char} (h : s.cursor.At (g ++ '(' :: (g' ++ text.toList ++ w ++ ')' :: cs)))
    (hbody : ∀ new c, c.At cs → Compiles statement (reach s new c) (Keyword.else_.name.toList ++ cs')
      (p.code (s.program.size + new.length)))
    (helse : decls.meaning s.declared Keyword.else_.name = .keyword .else_) (hcs : Apart cs')
    (hother : ∀ new c, c.Reads cs' → Compiles statement (reach s new c) r (q.code (s.program.size + new.length))) :
    Compiles (ifStatement decls statement pos) s r ((Part.ifElse text p q).code s.program.size) := by
  obtain ⟨c₁, c₂, new, hcond, hdoes, hc₂, hnew, hlen⟩ := body_does pos htext hg hg' hw h hbody
  let start := s.program.size
  let skip := start + 1 + p.size
  let stop := skip + 1 + q.size
  have hskip : s.program.size + (new.length + 1) = skip := by simp only [hlen, skip, start]; omega
  have hnext := nextIp_does s (⟨.jumpIfZero, start + 1, text, pos⟩ :: new) c₂
  rw [List.length_cons, hskip] at hnext
  -- the test first goes to the jump, and to the other body once it is there
  have hset : Does (setTarget start skip) (reach s (⟨.jumpIfZero, start + 1, text, pos⟩ :: new) c₂) ()
      (reach s (⟨.jumpIfZero, skip, text, pos⟩ :: new) c₂) := setTarget_does s c₂ [] rfl skip
  have hemit := emit_does s (⟨.jumpIfZero, skip, text, pos⟩ :: new) c₂ .jump none "" c₂.pos
  rw [List.length_cons, hskip] at hemit
  -- the other body stands behind the jump
  let front := (⟨.jumpIfZero, skip, text, pos⟩ :: new) ++ [⟨.jump, skip + 1, "", c₂.pos⟩]
  obtain ⟨c₃, hc₃, hfollows⟩ := elseFollows_does (s := reach s front c₂) helse hcs hc₂
  rw [move_eq_reach, reach_reach, List.append_nil] at hfollows
  obtain ⟨c₄, new', hdoes', hc₄, hnew'⟩ := hother front c₃ hc₃
  have hlen' : new'.length = q.size := length_of_erase hnew'
  rw [reach_reach] at hdoes'
  have hfront : front ++ new' = ⟨.jumpIfZero, skip, text, pos⟩ :: (new ++ ⟨.jump, skip + 1, "", c₂.pos⟩ :: new') := by
    simp [front]
  have htest : Does (setTarget start (skip + 1)) (reach s (front ++ new') c₄) ()
      (reach s (⟨.jumpIfZero, (skip + 1 : Nat), text, pos⟩ :: (new ++ ⟨.jump, skip + 1, "", c₂.pos⟩ :: new')) c₄) := by
    rw [hfront]
    exact setTarget_does s c₄ [] rfl (skip + 1)
  have hend := nextIp_does s
    (⟨.jumpIfZero, (skip + 1 : Nat), text, pos⟩ :: (new ++ ⟨.jump, skip + 1, "", c₂.pos⟩ :: new')) c₄
  rw [show s.program.size + _ = stop by
    simp only [List.length_cons, List.length_append, hlen, hlen', stop, skip, start]; omega] at hend
  have hjump : Does (setTarget skip stop)
      (reach s (⟨.jumpIfZero, (skip + 1 : Nat), text, pos⟩ :: new ++ ⟨.jump, skip + 1, "", c₂.pos⟩ :: new') c₄) ()
      (reach s (⟨.jumpIfZero, (skip + 1 : Nat), text, pos⟩ :: new ++ ⟨.jump, stop, "", c₂.pos⟩ :: new') c₄) :=
    setTarget_does s c₄ _ hskip.symm stop
  refine ⟨c₄, _, hcond.bind (hdoes.bind (hnext.bind (hset.bind ((getCursor_does _).bind (hemit.bind
    (hfollows.bind (hdoes'.bind (htest.bind (hend.bind hjump))))))))), hc₄, ?_⟩
  have hbase : s.program.size + front.length = skip + 1 := by
    simp only [front, List.length_append, List.length_cons, List.length_nil, ← hskip]
    omega
  have hafter : start + p.size + 2 = skip + 1 := by
    simp only [skip]
    omega
  rw [hbase] at hnew'
  rw [Part.code, hafter, List.map_append, List.map_cons, List.map_cons, hnew, hnew']
  rfl

end Bodies

end HostScript.Compiler
