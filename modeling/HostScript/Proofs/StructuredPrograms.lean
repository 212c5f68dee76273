import HostScript.Proofs.Compiling
/-!
# Structured programs are compiled

However a structured program is written, compiling the text gives its code, with nothing left for linking
to settle. The proof is by the ways to write a part: for a statement it does not matter what follows it, as
long as there is no `else` that would belong to it.
-/

set_option autoImplicit false

namespace HostScript.Compiler

open HostScript.Text HostScript.Structured

variable {ξ δ : Type} {decls : Declarations ξ δ} {d : δ} {s : Compilation δ} {close cs r g : List Char}

/-! ## Statements -/

theorem Compiles.of_gap {m : Compile δ Unit} {code : List Instruction} (hg : Gap g) (h : Compiles m s (g ++ r) code) :
    Compiles m s r code := by
  obtain ⟨c, new, hdoes, hc, hnew⟩ := h
  exact ⟨c, new, hdoes, hc.of_gap hg, hnew⟩

theorem Compiles.of_move {m m' : Compile δ Unit} {c : Cursor} {code : List Instruction}
    (hm : ∀ t, Does m (move s c) () t → Does m' s () t) (h : Compiles m (move s c) r code) : Compiles m' s r code := by
  obtain ⟨c', new, hdoes, hc', hnew⟩ := h
  exact ⟨c', new, hm _ hdoes, hc', hnew⟩

/-- What compiling does with a written part, wherever it stands. -/
def Compiled (decls : Declarations ξ δ) (d : δ) (close cs : List Char) : {k : Kind} → Part k → Prop
  | .statement, t => ∀ (n : Nat) (s : Compilation δ) (g r : List Char), s.declared = d → cs.length ≤ n → Gap g →
    Solid r → (t.Open → NoElse decls d r) → s.cursor.At (cs ++ (g ++ r)) →
      Compiles (statementWith decls (statementAt decls n)) s r (t.code s.program.size)
  | .block, b => close = ['\x7d'] → ∀ (n m : Nat) (s : Compilation δ) (r : List Char), s.declared = d →
    cs.length < n → cs.length < m → s.cursor.At (cs ++ r) →
      ∃ c new, Does (block (statementAt decls n) m) s () (reach s new c) ∧ c.Reads r ∧
        new.map erase = b.code s.program.size

/-- A statement within another one, or within a block. -/
theorem Compiled.within {t : Part .statement} (h : Compiled decls d close cs t) {n : Nat} {g₀ : List Char}
    (hn : cs.length < n) (hd : s.declared = d) (hg₀ : Gap g₀) (hg : Gap g) (hsolid : Solid r)
    (hopen : t.Open → NoElse decls d r) (hat : s.cursor.At (g₀ ++ (cs ++ (g ++ r)))) :
    Compiles (statementAt decls n) s r (t.code s.program.size) := by
  obtain ⟨n, rfl⟩ : ∃ m, n = m + 1 := ⟨n - 1, by omega⟩
  exact h n s g r hd (Nat.le_of_lt_succ hn) hg hsolid hopen (hat.of_gap hg₀)

theorem expression_compiled {text : String} {w : List Char} (hw : White w)
    (hp : (Part.expression text).Meant decls d) :
    Compiled decls d close (text.toList ++ w ++ [';']) (.expression text) := by
  rintro n s g r rfl - hg - - h
  obtain ⟨htext, hstart, hmeaning⟩ := hp
  have hafter : Apart (w ++ ';' :: (g ++ r)) := apart_gap hw.gap (apart_cons (by decide))
  obtain ⟨c, pos, hc, hdoes⟩ := statementWith_expression hstart hmeaning hafter (by simpa using h)
  exact .of_gap hg (.of_move hdoes (expressionStatement_compiles pos htext hw (by simpa using hc.at)))

/-- A `break` or `continue`, before a loop claims it. -/
theorem exit_compiled {k : Keyword} (hk : k = .break_ ∨ k = .continue_) {n : Nat} {g' : List Char}
    (hword : decls.meaning s.declared k.name = .keyword k) (hg' : Gap g') (hg : Gap g)
    (h : s.cursor.At (k.name.toList ++ g' ++ [';'] ++ (g ++ r))) :
    Compiles (statementWith decls (statementAt decls n)) s r
      [⟨if k = .break_ then .leave else .again, -1, "", default⟩] := by
  have hafter : Apart (g' ++ ';' :: (g ++ r)) := apart_gap hg' (apart_cons (by decide))
  obtain ⟨c, pos, hc, hdoes⟩ := statementWith_keyword hword hafter (by simpa using h)
  obtain ⟨c', hc', hdelim⟩ := expect_does (s := move s c) .expectedDelimiter (by decide)
    (solid_cons rfl (by decide)) ⟨g', hg', hc⟩
  rw [move_move, move_eq_reach s c'] at hdelim
  let leave : Instruction := ⟨if k = .break_ then .leave else .again, -1, "", pos⟩
  have hemit : Does (emit leave.opcode (some (-1)) "" pos) (reach s [] c') s.program.size (reach s [leave] c') :=
    emit_does s [] c' _ _ _ _
  have hkeyword : Does (keyword decls (statementAt decls n) k pos) (move s c) () (reach s [leave] c') := by
    rcases hk with rfl | rfl
    · exact hdelim.bind (hemit.bind (.pure _ _))
    · exact hdelim.bind (hemit.bind (.pure _ _))
  exact .of_gap hg (.of_move hdoes ⟨c', [leave], hkeyword, hc'.at, rfl⟩)

section Heads

variable {text : String} {head : List Char} {p q : Part .statement} {cs' : List Char}

theorem head_length {k : Keyword} (hhead : Head k text head) : 0 < head.length := by
  obtain ⟨g₁, g₂, w, g₃, -, rfl⟩ := head_apart hhead
  simp

/-- At its head a statement takes its keyword and comes to its condition. -/
theorem statementWith_head {k : Keyword} {statement : Compile δ Unit}
    (hword : decls.meaning s.declared k.name = .keyword k) (hhead : Head k text head) (h : s.cursor.At (head ++ cs)) :
    ∃ g₁ g₂ w g₃, (Gap g₁ ∧ Gap g₂ ∧ White w ∧ Gap g₃) ∧ ∃ c pos,
      c.At (g₁ ++ '(' :: (g₂ ++ text.toList ++ w ++ ')' :: (g₃ ++ cs))) ∧
      ∀ t, Does (keyword decls statement k pos) (move s c) () t → Does (statementWith decls statement) s () t := by
  obtain ⟨g₁, g₂, w, g₃, hgaps, rfl⟩ := head_apart hhead
  have hafter : Apart (g₁ ++ '(' :: (g₂ ++ text.toList ++ w ++ ')' :: (g₃ ++ cs))) :=
    apart_gap hgaps.1 (apart_cons (by decide))
  obtain ⟨c, pos, hc, hdoes⟩ := statementWith_keyword hword hafter (by simpa using h)
  exact ⟨g₁, g₂, w, g₃, hgaps, c, pos, hc.at, hdoes⟩

theorem while_compiled (hwords : Keywords decls d) (hp : (Part.while_ text p).Meant decls d)
    (hhead : Head .while_ text head) (ih : Compiled decls d close cs p) :
    Compiled decls d close (head ++ cs) (.while_ text p) := by
  rintro n s g r rfl hn hg hsolid hopen h
  rw [List.append_assoc] at h
  obtain ⟨g₁, g₂, w, g₃, ⟨hg₁, hg₂, hw, hg₃⟩, c, pos, hc, hdoes⟩ :=
    statementWith_head (hwords .while_ (by simp)) hhead h
  refine .of_move hdoes (whileStatement_compiles pos hp.1 hg₁ hg₂ hw hc fun new c' hc' => ?_)
  have hpos := head_length hhead
  rw [List.length_append] at hn
  rw [← reach_size (move s c) new c']
  exact ih.within (by omega) rfl hg₃ hg hsolid hopen hc'

theorem ifThen_compiled (hwords : Keywords decls d) (hp : (Part.ifThen text p).Meant decls d)
    (hhead : Head .if_ text head) (ih : Compiled decls d close cs p) :
    Compiled decls d close (head ++ cs) (.ifThen text p) := by
  rintro n s g r rfl hn hg hsolid hopen h
  rw [List.append_assoc] at h
  obtain ⟨g₁, g₂, w, g₃, ⟨hg₁, hg₂, hw, hg₃⟩, c, pos, hc, hdoes⟩ :=
    statementWith_head (hwords .if_ (by simp)) hhead h
  refine .of_move hdoes (ifThen_compiles pos hp.1 hg₁ hg₂ hw hc (fun new c' hc' => ?_) hsolid (hopen trivial))
  have hpos := head_length hhead
  rw [List.length_append] at hn
  rw [← reach_size (move s c) new c']
  exact ih.within (by omega) rfl hg₃ hg hsolid (fun _ => hopen trivial) hc'

theorem ifElse_compiled (hwords : Keywords decls d) (hp : (Part.ifElse text p q).Meant decls d)
    {g' g'' : List Char} (hhead : Head .if_ text head) (hg' : Gap g') (hg'' : Gap g'') (hafter : Apart (g'' ++ cs'))
    (hne : cs' ≠ []) (ihp : Compiled decls d close cs p) (ihq : Compiled decls d close cs' q) :
    Compiled decls d close (head ++ cs ++ g' ++ Keyword.else_.name.toList ++ g'' ++ cs') (.ifElse text p q) := by
  rintro n s g r rfl hn hg hsolid hopen h
  obtain ⟨htext, -, hclosed, -⟩ := hp
  have hother : Apart (g'' ++ (cs' ++ (g ++ r))) := by
    rw [← List.append_assoc]
    exact hafter.append (by simp [hne])
  have helse : Solid (Keyword.else_.name.toList ++ (g'' ++ (cs' ++ (g ++ r)))) :=
    solid_of_nameChar (a := 'e') (by decide)
  simp only [List.append_assoc] at h
  obtain ⟨g₁, g₂, w, g₃, ⟨hg₁, hg₂, hw, hg₃⟩, c, pos, hc, hdoes⟩ :=
    statementWith_head (hwords .if_ (by simp)) hhead h
  have hpos := head_length hhead
  simp only [List.length_append] at hn
  refine .of_move hdoes (ifElse_compiles pos htext hg₁ hg₂ hw hc (fun new c' hc' => ?_) (hwords .else_ (by simp))
    hother fun new c' hc' => ?_)
  · -- nothing in the body before the `else` takes it
    rw [← reach_size (move s c) new c']
    exact ihp.within (by omega) rfl hg₃ hg' helse (fun h => absurd h hclosed) hc'
  · rw [← reach_size (move s c) new c']
    exact ihq.within (by omega) rfl hg'' hg hsolid hopen hc'.at

end Heads

/-! ## Blocks -/

theorem block_compiled {b : Part .block} {g' : List Char} (hg' : Gap g') (ih : Compiled decls d ['}'] cs b) :
    Compiled decls d close ('{' :: (g' ++ cs)) (.block b) := by
  rintro n s g r rfl hn hg - - h
  rw [List.length_cons, List.length_append] at hn
  have h : s.cursor.At ('\x7b' :: (g' ++ (cs ++ (g ++ r)))) := by simpa using h
  obtain ⟨c, m, hc, hm, hdoes⟩ := statementWith_block h
  simp only [List.length_append] at hm
  obtain ⟨c', new, hblock, hc', hnew⟩ := ih rfl n m (move s c) (g ++ r) rfl (by omega) (by omega) ⟨g', hg', hc⟩
  exact .of_gap hg ⟨c', new, hdoes _ hblock, hc'.at, hnew⟩

/-- What a written statement starts with. -/
theorem written_head {t : Part .statement} (h : Written close t cs) (ht : t.Meant decls d) :
    ∃ a cs', cs = a :: cs' ∧ a ≠ '}' := by
  cases h with
  | @expression _ text w hw =>
    obtain ⟨-, hstart, -⟩ := ht
    cases hchars : text.toList with
    | nil => simp [hchars] at hstart
    | cons a as =>
      refine ⟨a, _, rfl, ?_⟩
      rintro rfl
      rw [hchars] at hstart
      exact absurd hstart (show ¬isNameStart '\x7d' = true by decide)
  | block => exact ⟨_, _, rfl, by decide⟩
  | ifThen hh =>
    obtain ⟨⟩ := hh
    exact ⟨'i', _, rfl, by decide⟩
  | ifElse hh =>
    obtain ⟨⟩ := hh
    exact ⟨'i', _, rfl, by decide⟩
  | while_ hh =>
    obtain ⟨⟩ := hh
    exact ⟨'w', _, rfl, by decide⟩
  | break_ => exact ⟨'b', _, rfl, by decide⟩
  | continue_ => exact ⟨'c', _, rfl, by decide⟩

theorem nil_compiled : Compiled decls d close close .nil := by
  rintro rfl n m s r rfl - hm h
  obtain ⟨m, rfl⟩ : ∃ k, m = k + 1 := ⟨m - 1, by simp at hm; omega⟩
  have hread : s.cursor.skipWhite.Reads ('\x7d' :: r) := h.skipWhite (solid_cons rfl (by decide))
  refine ⟨_, [], ?_, (Cursor.passes_skip ['\x7d'] rfl hread).reads hread, rfl⟩
  refine (skipWhite_does s).bind ((getCursor_does _).bind ?_)
  have hpeek : s.cursor.skipWhite.peek = '\x7d' := hread.peek_ascii (by decide)
  simp only [move_cursor, hread.not_atEnd, hpeek, Bool.false_eq_true, if_false, if_true, beq_self_eq_true]
  rw [← move_eq_reach]
  exact setCursor_does _ _

theorem cons_compiled {t : Part .statement} {b : Part .block} {cs' : List Char} (hwords : Keywords decls d)
    (ht : t.Meant decls d) (hb : b.Meant decls d) (hwritten : Written close t cs) (hg : Gap g)
    (hrest : Written close b cs') (iht : Compiled decls d close cs t) (ihb : Compiled decls d close cs' b) :
    Compiled decls d close (cs ++ g ++ cs') (.cons t b) := by
  rintro rfl n m s r rfl hn hm h
  simp only [List.length_append] at hn hm
  obtain ⟨m, rfl⟩ : ∃ k, m = k + 1 := ⟨m - 1, by omega⟩
  obtain ⟨a, tail, hhead, ha⟩ := written_head hwritten ht
  have hpos : 0 < cs.length := by simp [hhead]
  obtain ⟨hsolid, -⟩ := first_statement (r := g ++ (cs' ++ r)) hwritten ht hwords
  obtain ⟨hsolid', helse⟩ := first_block (r := r) hrest hb hwords (.inl rfl)
  have hread : s.cursor.skipWhite.Reads (cs ++ (g ++ (cs' ++ r))) := Cursor.At.skipWhite (by simpa using h) hsolid
  have hfirst : s.cursor.skipWhite.Reads (a :: (tail ++ (g ++ (cs' ++ r)))) := by rwa [hhead] at hread
  obtain ⟨c, new, hdoes, hc, hnew⟩ := iht.within (s := move s s.cursor.skipWhite) (n := n) (by omega) rfl .nil hg hsolid'
    (fun _ => helse) hread.at
  obtain ⟨c', new', hblock, hc', hnew'⟩ := ihb rfl n m (reach s new c) r rfl (by omega) (by omega) hc
  have hlen : new.length = t.size := length_of_erase hnew
  rw [reach_reach] at hblock
  rw [reach_size, hlen] at hnew'
  refine ⟨c', new ++ new', (skipWhite_does s).bind ((getCursor_does _).bind ?_), hc', ?_⟩
  · have hpeek : (s.cursor.skipWhite.peek == '\x7d') = false := by
      rw [hfirst.peek_beq (by decide), beq_eq_false_iff_ne]
      exact ha
    simp only [move_cursor, hfirst.not_atEnd, hpeek, Bool.false_eq_true, if_false]
    exact hdoes.bind hblock
  · rw [List.map_append, hnew, hnew']
    rfl

/-- However a part is written, it is compiled to its code. -/
theorem compiled_of_written {k : Kind} {p : Part k} (hwords : Keywords decls d) (h : Written close p cs)
    (hp : p.Meant decls d) : Compiled decls d close cs p := by
  induction h with
  | expression hw => exact expression_compiled hw hp
  | block hg _ ih => exact block_compiled hg (ih hp)
  | ifThen hhead _ ih => exact ifThen_compiled hwords hp hhead (ih hp.2)
  | ifElse hhead _ hg hg' hafter hother ihp ihq =>
    obtain ⟨a, cs', rfl, -⟩ := written_head hother hp.2.2.2
    exact ifElse_compiled hwords hp hhead hg hg' hafter (by simp) (ihp hp.2.1) (ihq hp.2.2.2)
  | while_ hhead _ ih => exact while_compiled hwords hp hhead (ih hp.2)
  | break_ hg' =>
    rintro n s g r rfl - hg - - h
    exact exit_compiled (.inl rfl) (hwords .break_ (by simp)) hg' hg h
  | continue_ hg' =>
    rintro n s g r rfl - hg - - h
    exact exit_compiled (.inr rfl) (hwords .continue_ (by simp)) hg' hg h
  | nil => exact nil_compiled
  | cons hwritten hg hrest iht ihb =>
    exact cons_compiled hwords hp.1 hp.2 hwritten hg hrest (iht hp.1) (ihb hp.2)

/-! ## Programs -/

section Statements

variable {statement : Compile δ Unit} {t u : Compilation δ} {m : Nat}

theorem statements_end (h : Does statement s () t) (hend : t.cursor.skipWhite.atEnd = true) :
    Does (statements statement (m + 1)) s () (move t t.cursor.skipWhite) := by
  refine h.bind ((skipWhite_does t).bind ((getCursor_does _).bind ?_))
  rw [move_cursor, hend]
  exact .pure _ _

theorem statements_next (h : Does statement s () t) (hend : t.cursor.skipWhite.atEnd = false)
    (hrest : Does (statements statement m) (move t t.cursor.skipWhite) () u) :
    Does (statements statement (m + 1)) s () u := by
  refine h.bind ((skipWhite_does t).bind ((getCursor_does _).bind ?_))
  rw [move_cursor, hend]
  exact hrest

end Statements

theorem solid_nil : Solid [] := ⟨by simp, by simp, by simp⟩

variable (decls) in
/-- Where there is no statement the compiler still looks for one. -/
theorem statements_nothing (n m : Nat) (hat : s.cursor.At []) :
    ∃ c, Does (statements (statementAt decls (n + 1)) (m + 1)) s () (move s c) := by
  have hread := hat.skipWhite solid_nil
  have hstatement : Does (statementAt decls (n + 1)) s () (move s s.cursor.skipWhite) := by
    refine (skipWhite_does s).bind ((getCursor_does _).bind ?_)
    rw [move_cursor, (Cursor.reads_nil hread).1]
    exact .pure _ _
  have hend := (Cursor.reads_nil (hread.at.skipWhite solid_nil)).1
  have hdoes := statements_end (m := m) hstatement hend
  rw [move_cursor, move_move] at hdoes
  exact ⟨_, hdoes⟩

theorem statements_compiled (hwords : Keywords decls d) {n m : Nat} {b : Part .block} (h : Written [] b cs)
    (hb : b.Meant decls d) (hd : s.declared = d) (hn : cs.length < n) (hm : cs.length < m) (hat : s.cursor.At cs) :
    ∃ c new, Does (statements (statementAt decls n) m) s () (reach s new c) ∧ new.map erase = b.code s.program.size := by
  induction m generalizing b cs s with
  | zero => cases hm
  | succ m ih =>
    cases h with
    | nil =>
      obtain ⟨n, rfl⟩ : ∃ k, n = k + 1 := ⟨n - 1, by omega⟩
      obtain ⟨c, hdoes⟩ := statements_nothing decls n m hat
      rw [move_eq_reach] at hdoes
      exact ⟨c, [], hdoes, rfl⟩
    | @cons _ t b cs g cs' ht hg hrest =>
      simp only [List.length_append] at hn hm
      obtain ⟨a, tail, hhead, -⟩ := written_head ht hb.1
      have hpos : 0 < cs.length := by simp [hhead]
      obtain ⟨hsolid, helse⟩ := first_block (r := []) hrest hb.2 hwords (.inr ⟨rfl, rfl⟩)
      rw [List.append_nil] at hsolid helse
      obtain ⟨c, new, hdoes, hc, hnew⟩ := (compiled_of_written hwords ht hb.1).within (s := s) (n := n) (by omega) hd .nil hg
        hsolid (fun _ => helse) (by simpa using hat)
      have hlen : new.length = t.size := length_of_erase hnew
      have hread := hc.skipWhite hsolid
      cases hend : c.skipWhite.atEnd with
      | true =>
        cases hrest with
        | nil => exact ⟨_, new, statements_end hdoes hend, by rw [hnew, Part.code, Part.code, List.append_nil]⟩
        | cons ht' =>
          obtain ⟨a', tail', rfl, -⟩ := written_head ht' hb.2.1
          exact absurd (hend.symm.trans hread.not_atEnd) (by simp)
      | false =>
        obtain ⟨c', new', hdoes', hnew'⟩ := ih (s := reach s new c.skipWhite) hrest hb.2 hd (by omega) (by omega) hread.at
        rw [reach_reach] at hdoes'
        rw [reach_size, hlen] at hnew'
        refine ⟨c', new ++ new', statements_next hdoes hend hdoes', ?_⟩
        rw [List.map_append, hnew, hnew']
        rfl

/-- Compiling a structured program succeeds, declares nothing and gives its code. -/
theorem compile_structured {p : Part .block} {source : String} (hwords : Keywords decls d) (hp : p.Meant decls d)
    (h : Source p source) :
    ∃ code, Compiler.compile decls source d = (.compiled ⟨code, []⟩, d) ∧ code.map erase = p.code 0 := by
  obtain ⟨g, cs, hsource, hg, hwritten⟩ := h
  have hread : (Cursor.ofSource source).Reads (g ++ cs) := by
    rw [Cursor.Reads, ← hsource]
    exact utf8_eq_bytes source
  have hlen : cs.length < (Cursor.ofSource source).rest.length + 1 := by
    have := length_le_bytes (g ++ cs)
    rw [List.length_append] at this
    rw [hread]
    omega
  obtain ⟨c, code, hdoes, hcode⟩ := statements_compiled (s := ⟨Cursor.ofSource source, .empty, d⟩) hwords hwritten hp rfl
    hlen hlen ⟨g, hg, hread⟩
  refine ⟨code, ?_, hcode⟩
  have hrun : (statements (statementAt decls ((Cursor.ofSource source).rest.length + 1))
      ((Cursor.ofSource source).rest.length + 1)).run ⟨Cursor.ofSource source, .empty, d⟩ =
        (.ok (), ⟨c, ⟨code, []⟩, d⟩) := hdoes
  rw [Compiler.compile, hrun]

end HostScript.Compiler

namespace HostScript.Program

/-- Code with no jumps to labels and nothing that waits for a loop is linked as it stands. -/
theorem link_settled (p : Program)
    (h : ∀ i ∈ p.instructions, i.opcode = .calc ∨ i.opcode = .jumpIfZero ∨ i.opcode = .jump) : p.link = (p, none) := by
  have hall : ∀ code : List Instruction,
      (∀ i ∈ code, i.opcode = .calc ∨ i.opcode = .jumpIfZero ∨ i.opcode = .jump) → p.linkAll code = (code, none) := by
    intro code
    induction code with
    | nil => exact fun _ => rfl
    | cons i code ih =>
      intro h
      obtain ⟨hi, hcode⟩ := List.forall_mem_cons.mp h
      have hone : p.linkOne i = .ok i := by rcases hi with hi | hi | hi <;> rw [linkOne, hi]
      rw [linkAll, hone, ih hcode]
  rw [link, hall _ h]

end HostScript.Program
