import HostScript.Proofs.LineCounts
import Mathlib.Data.Set.Basic
/-!
# Positions in the source

Each instruction and each error carries a line and an offset. The line is the number of line feeds before the offset,
unless a declaration with a first value stands before it whose sign is in a later line than its name: the cursor goes
back to the name, but stays in the line of the sign, and the lines between are counted again. From there on all lines
are too large.
-/

set_option autoImplicit false

namespace HostScript

open HostScript.Text

namespace Compiler

variable {ξ δ α β : Type} {decls : Declarations ξ δ} {s t u : Compilation δ} {m : Compile δ α} {f : α → Compile δ β}
  {pos : SourcePos}

/-! ## Passing places where lines are counted again -/

/-- The position of a cursor between two others, whose line is too large exactly if one of the places lies before it. -/
def Noted (places : Set Nat) (c d : Cursor) (pos : SourcePos) : Prop :=
  ∃ e n, e.pos = pos ∧ c.Drifts n e ∧ e.Upto d ∧ (0 < n ↔ ∃ o ∈ places, o < pos.offset)

/-- From one state to another lines have been counted again at the given places, and nowhere else. -/
structure Passage (places : Set Nat) (s t : Compilation δ) : Prop where
  drifts : ∃ n, s.cursor.Drifts n t.cursor ∧ (0 < n ↔ places.Nonempty)
  within : ∀ o ∈ places, s.cursor.offset ≤ o ∧ o < t.cursor.offset
  noted : ∃ noted, t.program.positions = s.program.positions ++ noted ∧
    ∀ pos ∈ noted, Noted places s.cursor t.cursor pos

variable {D D' : Set Nat}

theorem Passage.upto (h : Passage D s t) : s.cursor.Upto t.cursor := by
  obtain ⟨n, hdrifts, -⟩ := h.drifts
  exact hdrifts.upto

theorem Noted.later {c d e : Cursor} (h : Noted D c d pos) (hd : d.Upto e) : Noted D c e pos := by
  obtain ⟨x, n, hx, hdrifts, hupto, hn⟩ := h
  exact ⟨x, n, hx, hdrifts, hupto.trans hd, hn⟩

/-- Places behind a cursor do not matter to the positions before it. -/
theorem Noted.before {c d e : Cursor} (h : Noted D c d pos) (hd : d.Upto e) (hD : ∀ o ∈ D', d.offset ≤ o) :
    Noted (D ∪ D') c e pos := by
  obtain ⟨x, n, rfl, hx, hxd, hn⟩ := h
  refine ⟨x, n, rfl, hx, hxd.trans hd, hn.trans ⟨?_, ?_⟩⟩
  · rintro ⟨o, ho, hlt⟩
    exact ⟨o, .inl ho, hlt⟩
  · rintro ⟨o, ho | ho, hlt⟩
    · exact ⟨o, ho, hlt⟩
    · exact absurd (Nat.lt_of_lt_of_le hlt (Nat.le_trans hxd.offset (hD o ho))) (Nat.lt_irrefl o)

/-- To the positions behind a cursor the places before it matter. -/
theorem Noted.behind {c d e : Cursor} {n : Nat} (hc : c.Drifts n d) (hn : 0 < n ↔ D.Nonempty)
    (hD : ∀ o ∈ D, o < d.offset) (h : Noted D' d e pos) : Noted (D ∪ D') c e pos := by
  obtain ⟨x, m, rfl, hx, hxe, hm⟩ := h
  refine ⟨x, n + m, rfl, hc.trans hx, hxe, Nat.add_pos_iff_pos_or_pos.trans ⟨?_, ?_⟩⟩
  · rintro (hpos | hpos)
    · obtain ⟨o, ho⟩ := hn.mp hpos
      exact ⟨o, .inl ho, Nat.lt_of_lt_of_le (hD o ho) hx.upto.offset⟩
    · obtain ⟨o, ho, hlt⟩ := hm.mp hpos
      exact ⟨o, .inr ho, hlt⟩
  · rintro ⟨o, ho | ho, hlt⟩
    · exact .inl (hn.mpr ⟨o, ho⟩)
    · exact .inr (hm.mpr ⟨o, ho, hlt⟩)

theorem Passage.trans (h : Passage D s t) (h' : Passage D' t u) : Passage (D ∪ D') s u := by
  obtain ⟨n, hst, hn⟩ := h.drifts
  obtain ⟨m, htu, hm⟩ := h'.drifts
  refine ⟨⟨n + m, hst.trans htu, ?_⟩, ?_, ?_⟩
  · rw [Nat.add_pos_iff_pos_or_pos, hn, hm, Set.union_nonempty]
  · rintro o (ho | ho)
    · have := h.within o ho
      exact ⟨this.1, Nat.lt_of_lt_of_le this.2 htu.upto.offset⟩
    · have := h'.within o ho
      exact ⟨Nat.le_trans hst.upto.offset this.1, this.2⟩
  · obtain ⟨ps, hps, hs⟩ := h.noted
    obtain ⟨qs, hqs, ht⟩ := h'.noted
    refine ⟨ps ++ qs, by rw [hqs, hps, List.append_assoc], fun pos hpos => ?_⟩
    rcases List.mem_append.mp hpos with hpos | hpos
    · exact (hs pos hpos).before htu.upto fun o ho => (h'.within o ho).1
    · exact Noted.behind hst hn (fun o ho => (h.within o ho).2) (ht pos hpos)

/-- A position that lies in the passage may be noted at its end. -/
theorem Passage.note (h : Passage D s t) (hpos : Noted D s.cursor t.cursor pos) (hnotes : Notes pos t u) :
    Passage D s u := by
  obtain ⟨n, hst, hn⟩ := h.drifts
  obtain ⟨ps, hps, hs⟩ := h.noted
  have hupto := hnotes.counts.upto
  refine ⟨⟨n, hst.counts hnotes.counts, hn⟩, fun o ho => ?_, ?_⟩
  · have := h.within o ho
    exact ⟨this.1, Nat.lt_of_lt_of_le this.2 hupto.offset⟩
  rcases hnotes.positions with hnone | hone
  · exact ⟨ps, hnone.trans hps, fun p hp => (hs p hp).later hupto⟩
  · refine ⟨ps ++ [pos], by rw [hone, hps, List.append_assoc], fun p hp => ?_⟩
    rcases List.mem_append.mp hp with hp | hp
    · exact (hs p hp).later hupto
    · rw [List.mem_singleton.mp hp]
      exact hpos.later hupto

theorem Counted.passage (h : Counted s t) : Passage ∅ s t :=
  ⟨⟨0, h.counts, by simp⟩, fun o ho => absurd ho (Set.notMem_empty o), [], by rw [h.positions, List.append_nil],
    List.forall_mem_nil _⟩

theorem Passage.counted (h : Passage D s t) (h' : Counted t u) : Passage D s u := by
  have := h.trans h'.passage
  rwa [Set.union_empty] at this

/-- The position of a cursor up to which lines have been counted. -/
theorem noted_pos {c d e : Cursor} (h : c.Counts e) (he : e.Upto d) : Noted ∅ c d e.pos :=
  ⟨e, 0, rfl, h, he, by simp⟩

theorem Passage.bind {E : α → Compilation δ → Set Nat} {r : Compilation δ} (hm : Passage D r (stateAfter m s))
    (hf : ∀ a t, Does m s a t → Passage (E a t) t (stateAfter (f a) t)) :
    Passage (D ∪ {o | ∃ a t, Does m s a t ∧ o ∈ E a t}) r (stateAfter (m >>= f) s) := by
  rcases stateAfter_bind m f s with ⟨a, t, hdone, heq⟩ | ⟨hnone, heq⟩
  · have hplaces : {o | ∃ a t, Does m s a t ∧ o ∈ E a t} = E a t := by
      ext o
      refine ⟨?_, fun ho => ⟨a, t, hdone, ho⟩⟩
      rintro ⟨b, u, hdone', ho⟩
      obtain ⟨rfl, rfl⟩ := hdone.unique hdone'
      exact ho
    rw [heq, hplaces]
    rw [hdone.stateAfter] at hm
    exact hm.trans (hf a t hdone)
  · have hplaces : {o | ∃ a t, Does m s a t ∧ o ∈ E a t} = ∅ :=
      Set.eq_empty_iff_forall_notMem.mpr fun o ⟨a, t, hdone, _⟩ => hnone a t hdone
    rw [heq, hplaces, Set.union_empty]
    exact hm

theorem Passage.congr (h : Passage D s t) (heq : ∀ o, o ∈ D ↔ o ∈ D') : Passage D' s t := Set.ext heq ▸ h

/-! ## Where lines are counted again -/

variable (decls) in
/-- A declaration with a first value stands at the cursor, whose sign is in a later line than the end of the name. The
place is where the name starts. -/
def Recounts (s : Compilation δ) (o : Nat) : Prop :=
  ∃ ty t first u, Starts decls s (.typedef ty) t ∧ o = t.cursor.skipWhite.offset ∧
    Does name (move t t.cursor.skipWhite) first u ∧ Does (checkFree decls first) u () u ∧
    u.cursor.skipWhite.peek = '=' ∧ 0 < u.cursor.lineFeedsTo u.cursor.skipWhite

variable (decls) in
/-- The places in the statement at the cursor. -/
def recounted (s : Compilation δ) : Set Nat := {o | ∃ t, Reaches decls s t ∧ Recounts decls t o}

variable (decls) in
/-- The places in the statement at the cursor and those behind it. -/
def recountedAlong (goesOn : Cursor → Bool) (s : Compilation δ) : Set Nat :=
  {o | ∃ t, Sequel decls goesOn s t ∧ o ∈ recounted decls t}

variable {o : Nat} {x : Meaning ξ}

theorem mem_recountedAlong {goesOn : Cursor → Bool} : o ∈ recountedAlong decls goesOn s ↔ o ∈ recounted decls s ∨
    ∃ a t, Does (statementHere decls) s a t ∧ goesOn t.cursor.skipWhite = true ∧
      o ∈ recountedAlong decls goesOn (move t t.cursor.skipWhite) := by
  constructor
  · rintro ⟨t, hsequel, ho⟩
    cases hsequel with
    | first => exact .inl ho
    | next hdone hgo hrest => exact .inr ⟨(), _, hdone, hgo, t, hrest, ho⟩
  · rintro (ho | ⟨_, t, hdone, hgo, u, hrest, ho⟩)
    · exact ⟨s, .first s, ho⟩
    · exact ⟨u, .next hdone hgo hrest, ho⟩

theorem Starts.unique {y : Meaning ξ} (h : Starts decls s x t) (h' : Starts decls s y u) : x = y ∧ t = u := by
  obtain ⟨-, first, hname, rfl⟩ := h
  obtain ⟨-, first', hname', rfl⟩ := h'
  obtain ⟨rfl, rfl⟩ := hname.unique hname'
  exact ⟨rfl, rfl⟩

theorem Starts.not_brace (h : Starts decls s x t) : s.cursor.skipWhite.peek ≠ '\x7b' := by
  intro hbrace
  have hstart := h.1
  rw [hbrace] at hstart
  exact absurd hstart (by decide)

/-- The places in a statement that starts with a name. -/
theorem mem_recounted_named (h : Starts decls s x t) : o ∈ recounted decls s ↔ Recounts decls s o ∨
    (∃ k test u, x = .keyword k ∧ (k = .if_ ∨ k = .while_) ∧ Does (condition s.cursor.skipWhite.pos) t test u ∧
      o ∈ recounted decls u) ∨
    ∃ u, x = .keyword .if_ ∧ Does (upToElse decls s.cursor.skipWhite.pos) t true u ∧ o ∈ recounted decls u := by
  constructor
  · rintro ⟨u, hreaches, ho⟩
    cases hreaches with
    | here => exact .inl ho
    | block hbrace => exact absurd hbrace h.not_brace
    | body hstarts hk hcond hrest =>
      obtain ⟨rfl, rfl⟩ := h.unique hstarts
      exact .inr (.inl ⟨_, _, _, rfl, hk, hcond, u, hrest, ho⟩)
    | other hstarts hupTo hrest =>
      obtain ⟨rfl, rfl⟩ := h.unique hstarts
      exact .inr (.inr ⟨_, rfl, hupTo, u, hrest, ho⟩)
  · rintro (ho | ⟨k, test, u, rfl, hk, hcond, v, hrest, ho⟩ | ⟨u, rfl, hupTo, v, hrest, ho⟩)
    · exact ⟨s, .here s, ho⟩
    · exact ⟨v, .body h hk hcond hrest, ho⟩
    · exact ⟨v, .other h hupTo hrest, ho⟩

/-- The places in a block. -/
theorem mem_recounted_braced (hbrace : s.cursor.skipWhite.peek = '\x7b') : o ∈ recounted decls s ↔
    inBlock (s.cursor.skipWhite.skip 1).skipWhite = true ∧
      o ∈ recountedAlong decls inBlock (move s (s.cursor.skipWhite.skip 1).skipWhite) := by
  constructor
  · rintro ⟨u, hreaches, ho⟩
    cases hreaches with
    | here =>
      obtain ⟨ty, t, first, v, hstarts, -⟩ := ho
      exact absurd hbrace hstarts.not_brace
    | block _ hgo hsequel hrest => exact ⟨hgo, _, hsequel, u, hrest, ho⟩
    | body hstarts => exact absurd hbrace hstarts.not_brace
    | other hstarts => exact absurd hbrace hstarts.not_brace
  · rintro ⟨hgo, t, hsequel, u, hrest, ho⟩
    exact ⟨u, .block hbrace hgo hsequel hrest, ho⟩

/-- There are none in any other statement. -/
theorem recounted_plain (hstart : ¬isNameStart s.cursor.skipWhite.peek = true)
    (hbrace : s.cursor.skipWhite.peek ≠ '\x7b') : recounted decls s = ∅ := by
  refine Set.eq_empty_iff_forall_notMem.mpr ?_
  rintro o ⟨u, hreaches, ho⟩
  cases hreaches with
  | here =>
    obtain ⟨ty, t, first, v, hstarts, -⟩ := ho
    exact hstart hstarts.1
  | block hopen => exact hbrace hopen
  | body hstarts => exact hstart hstarts.1
  | other hstarts => exact hstart hstarts.1

/-- Behind what an `if` does, and the jump over what it does else. -/
def behindBody (test : Nat) (s : Compilation δ) : Compilation δ :=
  stateAfter (emit .jump none "" s.cursor.pos) (stateAfter (setTarget test s.program.size) s)

/-- An `if` is compiled up to its `else` in three steps. -/
theorem upToElse_does {follows : Bool} : Does (upToElse decls pos) s follows t ↔
    ∃ test u v, Does (condition pos) s test u ∧ Does (statementHere decls) u () v ∧
      Does (elseFollows decls) (behindBody test v) follows t := by
  constructor
  · intro h
    obtain ⟨test, u, hcond, h⟩ := h.of_bind
    obtain ⟨_, v, hbody, h⟩ := h.of_bind
    refine ⟨test, u, v, hcond, hbody, ?_⟩
    exact (Compiling.emit_does _ _ _ _ _).after ((getCursor_does _).after
      ((Compiling.setTarget_does _ _ _).after ((Compiling.nextIp_does v).after h)))
  · rintro ⟨test, u, v, hcond, hbody, helse⟩
    refine hcond.bind (hbody.bind ?_)
    exact (Compiling.nextIp_does v).bind ((Compiling.setTarget_does _ _ _).bind ((getCursor_does _).bind
      ((Compiling.emit_does _ _ _ _ _).bind helse)))

/-! ## Declarations -/

/-- An expression that is read again from the name on, with some lines counted already. -/
theorem reread_passage {n : Nat} (hrest : t.cursor.rest = s.cursor.rest) (hoffset : t.cursor.offset = s.cursor.offset)
    (hline : t.cursor.line = s.cursor.line + n) (hpositions : t.program.positions = s.program.positions)
    (hname : isNameChar s.cursor.peek = true) :
    Passage {o | o = s.cursor.offset ∧ 0 < n} s (stateAfter (expressionStatement s.cursor.pos) t) := by
  have hnotes := expressionStatement_notes s.cursor.pos t
  have hbefore : s.cursor.offset < (stateAfter (expressionStatement s.cursor.pos) t).cursor.offset := by
    have hname : isNameChar t.cursor.peek = true := by rwa [Cursor.peek, Cursor.peekAt, hrest]
    rw [← hoffset]
    exact (expressionStatement_before hname _).offset
  have hdrifts : s.cursor.Drifts n t.cursor := ⟨.of_eq hrest hoffset, by simp [hline, Cursor.lineFeedsTo, hoffset]⟩
  have hall := hdrifts.counts hnotes.counts
  refine ⟨⟨n, hall, ?_⟩, ?_, ?_⟩
  · constructor
    · exact fun hn => ⟨_, rfl, hn⟩
    · rintro ⟨_, -, hn⟩
      exact hn
  · rintro o ⟨rfl, -⟩
    exact ⟨Nat.le_refl _, hbefore⟩
  · -- the position noted is that of the name, which is not behind itself
    have hpos : Noted {o | o = s.cursor.offset ∧ 0 < n} s.cursor
        (stateAfter (expressionStatement s.cursor.pos) t).cursor s.cursor.pos := by
      refine ⟨s.cursor, 0, rfl, Cursor.Counts.rfl, hall.upto, iff_of_false (Nat.lt_irrefl 0) ?_⟩
      rintro ⟨o, ⟨rfl, -⟩, hlt⟩
      exact Nat.lt_irrefl _ hlt
    rw [← hpositions]
    rcases hnotes.positions with hnone | hone
    · exact ⟨[], by rw [hnone, List.append_nil], List.forall_mem_nil _⟩
    · refine ⟨[s.cursor.pos], hone, fun p hp => ?_⟩
      rw [List.mem_singleton.mp hp]
      exact hpos

theorem name_char {first : String} (h : Does name (move s s.cursor.skipWhite) first t) :
    isNameChar s.cursor.skipWhite.peek = true ∧
      t = move s (s.cursor.skipWhite.skip s.cursor.skipWhite.nameLength) := by
  obtain ⟨hpos, -, ht⟩ := name_done h
  rw [move_cursor, (Cursor.skipWhite_stops s.cursor).2] at hpos ht
  exact ⟨Cursor.nameLength_pos.mp hpos, ht⟩

theorem Starts.counted (h : Starts decls s x t) : Counted s t := by
  obtain ⟨-, first, hname, -⟩ := h
  have hscan := name_counted (move s s.cursor.skipWhite)
  rw [hname.stateAfter] at hscan
  exact (counted_white s).trans hscan

/-- There is only one way in which the statement starts. -/
theorem recounts_iff {ty : ValueType} (h : Starts decls s (.typedef ty) t) : Recounts decls s o ↔
    ∃ first u, o = t.cursor.skipWhite.offset ∧ Does name (move t t.cursor.skipWhite) first u ∧
      Does (checkFree decls first) u () u ∧ u.cursor.skipWhite.peek = '=' ∧
      0 < u.cursor.lineFeedsTo u.cursor.skipWhite := by
  constructor
  · rintro ⟨ty', t', first, u, hstarts, ho⟩
    obtain ⟨-, rfl⟩ := h.unique hstarts
    exact ⟨first, u, ho⟩
  · rintro ⟨first, u, ho⟩
    exact ⟨ty, t, first, u, h, ho⟩

/-- The cursor is back at the name, in the line of the sign. -/
theorem firstValue_passage {first : String} (hname : Does name (move s s.cursor.skipWhite) first t) (d : δ) :
    let start := s.cursor.skipWhite
    let back : Compilation δ := ⟨{ start with line := t.cursor.skipWhite.line }, t.program, d⟩
    Passage {o | o = start.offset ∧ 0 < t.cursor.lineFeedsTo t.cursor.skipWhite} (move s start)
      (stateAfter (expressionStatement start.pos) back) := by
  intro start back
  obtain ⟨hchar, ht⟩ := name_char hname
  have hscan := name_counted (move s start)
  rw [hname.stateAfter] at hscan
  -- there is no line feed in the name
  have hline : back.cursor.line = (move s start).cursor.line + t.cursor.lineFeedsTo t.cursor.skipWhite := by
    change t.cursor.skipWhite.line = start.line + t.cursor.lineFeedsTo t.cursor.skipWhite
    rw [(Cursor.skipWhite_counts t.cursor).line, Nat.add_zero, ht]
    rfl
  exact reread_passage (s := move s start) (t := back) rfl rfl hline hscan.positions hchar

/-- What a declaration counts again lies between the name and the sign. -/
theorem declaration_passage {ty : ValueType} (h : Starts decls s (.typedef ty) t) :
    Passage {o | Recounts decls s o} s (stateAfter (declaration decls ty) t) := by
  have hnone (hno : ∀ o, ¬Recounts decls s o) {r : Compilation δ} (hscan : Counted s r) :
      Passage {o | Recounts decls s o} s r :=
    hscan.passage.congr fun o => iff_of_false (Set.notMem_empty o) (hno o)
  have hwhite := h.counted.trans (counted_white t)
  rw [declaration, stateAfter_ahead]
  rcases stateAfter_bind name _ (move t t.cursor.skipWhite) with ⟨first, u, hname, heq⟩ | ⟨hfail, heq⟩
  swap
  · rw [heq]
    refine hnone (fun o ho => ?_) (hwhite.trans (name_counted _))
    obtain ⟨first, u, -, hname, -⟩ := (recounts_iff h).mp ho
    exact hfail first u hname
  rw [heq]
  have hread := hwhite.trans (hname.stateAfter ▸ name_counted (move t t.cursor.skipWhite))
  rcases stateAfter_bind (checkFree decls first) _ u with ⟨_, v, hfree, heq⟩ | ⟨hfail, heq⟩
  swap
  · rw [heq, checkFree_stateAfter]
    refine hnone (fun o ho => ?_) hread
    obtain ⟨first', u', -, hname', hfree, -⟩ := (recounts_iff h).mp ho
    obtain ⟨rfl, rfl⟩ := hname.unique hname'
    exact hfail _ _ hfree
  obtain rfl : u = v := (checkFree_stateAfter first u).symm.trans hfree.stateAfter
  rw [heq, stateAfter_modify, stateAfter_ahead]
  split
  · rename_i hsign
    have hsign : u.cursor.skipWhite.peek = '=' := beq_iff_eq.mp hsign
    rw [stateAfter_moved]
    refine (hwhite.passage.trans (firstValue_passage hname (decls.declare first ty u.declared))).congr fun o => ?_
    rw [Set.empty_union, Set.mem_ofPred_eq, Set.mem_ofPred_eq, recounts_iff h]
    constructor
    · rintro ⟨ho, hfeeds⟩
      exact ⟨first, u, ho, hname, hfree, hsign, hfeeds⟩
    · rintro ⟨first', u', ho, hname', -, -, hfeeds⟩
      obtain ⟨rfl, rfl⟩ := hname.unique hname'
      exact ⟨ho, hfeeds⟩
  · rename_i hsign
    have hscan : Counted s (move { u with declared := decls.declare first ty u.declared } u.cursor.skipWhite) :=
      ⟨hread.counts.trans (Cursor.skipWhite_counts _), hread.positions⟩
    refine hnone (fun o ho => ?_) (hscan.trans (expectDelimiter_counted _))
    obtain ⟨first', u', -, hname', -, hpeek, -⟩ := (recounts_iff h).mp ho
    obtain ⟨rfl, rfl⟩ := hname.unique hname'
    exact hsign (beq_iff_eq.mpr hpeek)

/-! ## Statements with statements inside -/

theorem setTarget_counted (ip target : Nat) (s : Compilation δ) : Counted s (stateAfter (setTarget ip target) s) where
  counts := .rfl
  positions := by
    change (s.program.instructions.modify ip fun i => { i with target := target }).map (·.pos) = _
    refine List.ext_getElem? fun k => ?_
    rw [Program.positions, List.getElem?_map, List.getElem?_modify, List.getElem?_map]
    cases s.program.instructions[k]? with
    | none => rfl
    | some i => by_cases hk : ip = k <;> simp [hk]

theorem claim_pos (start stop : Nat) (i : Instruction) : (claim start stop i).pos = i.pos := by
  unfold claim
  split <;> rfl

theorem patchFrom_counted (ip start stop : Nat) (s : Compilation δ) :
    Counted s (stateAfter (patchFrom ip (claim start stop)) s) where
  counts := .rfl
  positions := by
    change (s.program.instructions.take ip ++ (s.program.instructions.drop ip).map (claim start stop)).map (·.pos) = _
    rw [List.map_append, List.map_map, show (·.pos) ∘ claim start stop = (·.pos) from funext (claim_pos start stop),
      ← List.map_append, List.take_append_drop]
    rfl

/-- An instruction that is noted where the cursor stands. -/
theorem emitHere_passage (opcode : Opcode) (target : Option Int) (text : String) (s : Compilation δ) :
    Passage ∅ s (stateAfter (emit opcode target text s.cursor.pos) s) :=
  Counted.rfl.passage.note (noted_pos .rfl .rfl) (Counted.rfl.emit_notes _ _ _)

variable (decls) in
/-- What is known of the statements inside of a statement that start with less than so much before them. -/
def PassagesBelow (size : Nat) : Prop :=
  ∀ s : Compilation δ, s.cursor.rest.length < size → Passage (recounted decls s) s (stateAfter (statementHere decls) s)

variable {size n : Nat}

/-- The test of a condition or loop is noted where the statement starts. -/
theorem condition_passage (h : Counted s t) (hpos : Noted ∅ s.cursor t.cursor pos) :
    Passage ∅ s (stateAfter (condition pos) t) := h.passage.note hpos (condition_notes pos t)

theorem whileStatement_passage (hinner : PassagesBelow decls size) (ht : t.cursor.rest.length < size)
    (h : Counted s t) (hpos : Noted ∅ s.cursor t.cursor pos) :
    Passage {o | ∃ test u, Does (condition pos) t test u ∧ o ∈ recounted decls u} s
      (stateAfter (whileStatement (statementHere decls) pos) t) := by
  refine ((condition_passage h hpos).bind (E := fun _ u => recounted decls u) fun test u hcond => ?_).congr
    fun o => by simp
  have hu := Nat.lt_of_le_of_lt (Compiling.condition_upto hcond).rest_le ht
  refine ((hinner u hu).bind (E := fun _ _ => ∅) fun _ v _ => ?_).congr fun o => by simp
  exact ((emitHere_passage _ _ _ v).counted (setTarget_counted _ _ _)).counted (patchFrom_counted _ _ _ _)

theorem stateAfter_bodyEnd {f : Nat → Bool → Compile δ α} (test : Nat) (s : Compilation δ) :
    stateAfter (do
        setTarget test (← nextIp)
        let skip ← emit .jump none "" (← getCursor).pos
        f skip (← elseFollows decls)) s =
      stateAfter (elseFollows decls >>= f (stateAfter (setTarget test s.program.size) s).program.size)
        (behindBody test s) := by
  rw [(Compiling.nextIp_does s).stateAfter_bind, (Compiling.setTarget_does _ _ _).stateAfter_bind, stateAfter_look,
    (Compiling.emit_does _ _ _ _ _).stateAfter_bind]
  rfl

theorem otherwise_passage (hinner : PassagesBelow decls size) (hs : s.cursor.rest.length < size) (test : Nat) :
    Passage {o | ∃ t, Does (elseFollows decls) (behindBody test s) true t ∧ o ∈ recounted decls t} s
      (stateAfter (do
        setTarget test (← nextIp)
        let skip ← emit .jump none "" (← getCursor).pos
        if ← elseFollows decls then
          statementHere decls
          setTarget test (skip + 1)
          setTarget skip (← nextIp)) s) := by
  have hbehind : Passage ∅ s (behindBody test s) :=
    ((setTarget_counted test s.program.size s).passage.trans (emitHere_passage _ _ _ _)).congr fun o => by simp
  rw [stateAfter_bodyEnd]
  refine ((hbehind.counted (elseFollows_counted _)).bind
    (E := fun follows t => {o | follows = true ∧ o ∈ recounted decls t}) fun follows t helse => ?_).congr fun o => ?_
  · cases follows with
    | false => exact Counted.rfl.passage.congr fun o => by simp
    | true =>
      have ht := Nat.lt_of_le_of_lt (elseFollows_read helse).1.rest_le hs
      refine ((hinner t ht).bind (E := fun _ _ => ∅) fun _ u _ => ?_).congr fun o => by simp
      exact ((setTarget_counted _ _ u).trans (setTarget_counted _ _ _)).passage
  · simp

theorem ifStatement_passage (hinner : PassagesBelow decls size) (ht : t.cursor.rest.length < size)
    (h : Counted s t) (hpos : Noted ∅ s.cursor t.cursor pos) :
    Passage ({o | ∃ test u, Does (condition pos) t test u ∧ o ∈ recounted decls u} ∪
        {o | ∃ u, Does (upToElse decls pos) t true u ∧ o ∈ recounted decls u}) s
      (stateAfter (ifStatement decls (statementHere decls) pos) t) := by
  refine ((condition_passage h hpos).bind (E := fun test u => recounted decls u ∪
    {o | ∃ a v, Does (statementHere decls) u a v ∧
      o ∈ {o | ∃ w, Does (elseFollows decls) (behindBody test v) true w ∧ o ∈ recounted decls w}})
    fun test u hcond => ?_).congr fun o => ?_
  · have hu := Nat.lt_of_le_of_lt (Compiling.condition_upto hcond).rest_le ht
    refine (hinner u hu).bind fun _ v hbody => ?_
    exact otherwise_passage hinner (Nat.lt_of_le_of_lt ((statementHere_forward decls).upto hbody).rest_le hu) test
  · rw [Set.empty_union]
    constructor
    · rintro ⟨test, u, hcond, ho | ⟨_, v, hbody, w, helse, ho⟩⟩
      · exact .inl ⟨test, u, hcond, ho⟩
      · exact .inr ⟨w, upToElse_does.mpr ⟨test, u, v, hcond, hbody, helse⟩, ho⟩
    · rintro (⟨test, u, hcond, ho⟩ | ⟨w, hupTo, ho⟩)
      · exact ⟨test, u, hcond, .inl ho⟩
      · obtain ⟨test, u, v, hcond, hbody, helse⟩ := upToElse_does.mp hupTo
        exact ⟨test, u, hcond, .inr ⟨(), v, hbody, w, helse, ho⟩⟩

/-- Of the keywords those of conditions and loops have statements inside of them. -/
theorem keyword_passage {k : Keyword} (hinner : PassagesBelow decls size) (ht : t.cursor.rest.length < size)
    (h : Starts decls s (.keyword k) t) :
    Passage (recounted decls s) s
      (stateAfter (keyword decls (statementHere decls) k s.cursor.skipWhite.pos) t) := by
  have hscan := h.counted
  have hpos : Noted ∅ s.cursor t.cursor s.cursor.skipWhite.pos := by
    obtain ⟨-, first, hname, -⟩ := h
    exact noted_pos (Cursor.skipWhite_counts _) (name_taken hname).1.upto
  have hdecl : ∀ o, ¬Recounts decls s o := by
    rintro o ⟨ty, u, first, v, hstarts, -⟩
    cases (h.unique hstarts).1
  -- the keywords that only note where they stand
  have hnotes {r : Compilation δ} (hr : Notes s.cursor.skipWhite.pos t r) (hif : k ≠ .if_) (hwhile : k ≠ .while_) :
      Passage (recounted decls s) s r := by
    refine (hscan.passage.note hpos hr).congr fun o => iff_of_false (Set.notMem_empty o) ?_
    rw [mem_recounted_named h]
    rintro (ho | ⟨_, test, u, hk, hk' | hk', -⟩ | ⟨u, hk, -⟩)
    · exact hdecl o ho
    · cases hk
      exact hif hk'
    · cases hk
      exact hwhile hk'
    · cases hk
      exact hif rfl
  cases k with
  | if_ =>
    refine (ifStatement_passage hinner ht hscan hpos).congr fun o => ?_
    rw [mem_recounted_named h]
    simp [hdecl]
  | while_ =>
    refine (whileStatement_passage hinner ht hscan hpos).congr fun o => ?_
    rw [mem_recounted_named h]
    simp [hdecl]
  | break_ | continue_ | return_ => exact hnotes (delimited_notes .rfl _ _ _) (by decide) (by decide)
  | goto | gosub =>
    refine hnotes (holds_after_bind (name_counted t).notes fun target u hname => ?_) (by decide) (by decide)
    exact delimited_notes (hname.stateAfter ▸ name_counted t) _ _ _
  | else_ | external => exact hnotes Counted.rfl.notes (by decide) (by decide)

/-- Statements up to a brace. -/
theorem block_passage (hinner : PassagesBelow decls size) (hs : s.cursor.rest.length < size)
    (hn : s.cursor.rest.length < n) :
    Passage {o | inBlock s.cursor.skipWhite = true ∧ o ∈ recountedAlong decls inBlock (move s s.cursor.skipWhite)} s
      (stateAfter (block (statementHere decls) n) s) := by
  induction n generalizing s with
  | zero => cases hn
  | succ n ih =>
    have hover (hno : ¬inBlock s.cursor.skipWhite = true) {r : Compilation δ} (hscan : Counted s r) :
        Passage {o | inBlock s.cursor.skipWhite = true ∧
          o ∈ recountedAlong decls inBlock (move s s.cursor.skipWhite)} s r :=
      hscan.passage.congr fun o => iff_of_false (Set.notMem_empty o) fun ho => hno ho.1
    rw [block, stateAfter_ahead]
    by_cases hend : s.cursor.skipWhite.atEnd
    · rw [if_pos hend]
      exact hover (by simp [inBlock, hend]) (counted_white s)
    by_cases hclose : s.cursor.skipWhite.peek == '\x7d'
    · rw [if_neg hend, if_pos hclose]
      have hpeek : s.cursor.skipWhite.peek ≠ '\n' := Cursor.not_newline (Cursor.skipWhite_stops _).1
      have hskip := (counted_white s).trans (counted_move (Cursor.skip_one_counts hpeek))
      exact hover (by simp [inBlock, bne, hclose]) hskip
    rw [if_neg hend, if_neg hclose]
    have hwhite := (Cursor.skipWhite_upto s.cursor).rest_le
    refine ((counted_white s).passage.trans ((hinner (move s s.cursor.skipWhite) (Nat.lt_of_le_of_lt hwhite hs)).bind
      (E := fun _ t => {o | inBlock t.cursor.skipWhite = true ∧
        o ∈ recountedAlong decls inBlock (move t t.cursor.skipWhite)}) fun _ t hdone => ?_)).congr fun o => ?_
    · have hend : s.cursor.skipWhite.atEnd = false := Bool.eq_false_iff.mpr hend
      have htaken := ((statementHere_forward decls).before hdone hend).rest_lt hend
      rw [move_cursor] at htaken
      exact ih (by omega) (by omega)
    · have hgo : inBlock s.cursor.skipWhite = true := by simp_all [inBlock]
      rw [Set.empty_union, Set.mem_ofPred_eq, and_iff_right hgo, mem_recountedAlong]
      rfl

/-- Statements up to the end. -/
theorem statements_passage (hinner : PassagesBelow decls size) (hs : s.cursor.rest.length < size)
    (hn : s.cursor.rest.length < n) :
    Passage (recountedAlong decls inSource s) s (stateAfter (statements (statementHere decls) n) s) := by
  induction n generalizing s with
  | zero => cases hn
  | succ n ih =>
    refine ((hinner s hs).bind (E := fun _ t => {o | inSource t.cursor.skipWhite = true ∧
      o ∈ recountedAlong decls inSource (move t t.cursor.skipWhite)}) fun _ t hdone => ?_).congr fun o => ?_
    · rw [stateAfter_ahead]
      by_cases hend : t.cursor.skipWhite.atEnd
      · rw [if_pos hend]
        exact (counted_white t).passage.congr fun o => iff_of_false (Set.notMem_empty o) fun ho => by simp [inSource, hend] at ho
      have hwhite := Cursor.skipWhite_upto t.cursor
      have hupto := ((statementHere_forward decls).upto hdone).trans hwhite
      have hstart : s.cursor.atEnd = false := Compiling.not_atEnd_of_upto hupto (Bool.eq_false_iff.mpr hend)
      have htaken := (((statementHere_forward decls).before hdone hstart).trans hwhite).rest_lt hstart
      have hgo : inSource t.cursor.skipWhite = true := by simp_all [inSource]
      rw [if_neg hend]
      refine ((counted_white t).passage.trans (ih (s := move t t.cursor.skipWhite) ?_ ?_)).congr fun o => ?_
      · exact Nat.lt_trans htaken hs
      · exact Nat.lt_of_lt_of_le htaken (Nat.le_of_lt_succ hn)
      · simp [hgo]
    · rw [mem_recountedAlong]
      rfl

/-- A name is read where one starts. -/
theorem name_succeeds (hstart : isNameStart s.cursor.skipWhite.peek = true) :
    ∃ first t, Does name (move s s.cursor.skipWhite) first t := by
  have hpos := Cursor.nameLength_pos.mpr (nameChar_of_start hstart)
  let start := s.cursor.skipWhite
  refine ⟨start.textTo (start.skip start.nameLength), move s (start.skip start.nameLength),
    (skipWhite_does _).bind ((getCursor_does _).bind ?_)⟩
  dsimp only [move_cursor]
  rw [(Cursor.skipWhite_stops s.cursor).2, if_neg (Nat.ne_of_gt hpos)]
  exact (setCursor_does _ _).bind (.pure _ _)

theorem named_passage (hinner : PassagesBelow decls s.cursor.rest.length)
    (hstart : isNameStart s.cursor.skipWhite.peek = true) :
    Passage (recounted decls s) s (stateAfter (statementWith decls (statementHere decls)) s) := by
  obtain ⟨hend, hsemi, hbrace, hcolon⟩ := other_of_start hstart
  obtain ⟨first, t, hname⟩ := name_succeeds hstart
  rw [statementWith, stateAfter_ahead, if_neg hend, if_neg hsemi, if_neg hbrace, if_neg hcolon, if_pos hstart,
    hname.stateAfter_bind, (Does.get t).stateAfter_bind]
  generalize hx : decls.meaning t.declared first = x
  have hstarts : Starts decls s x t := ⟨hstart, first, hname, hx⟩
  have hscan := hstarts.counted
  have hsimple (hk : ∀ k, x ≠ .keyword k) (hty : ∀ ty, x ≠ .typedef ty) {r : Compilation δ} (hr : Passage ∅ s r) :
      Passage (recounted decls s) s r := by
    refine hr.congr fun o => iff_of_false (Set.notMem_empty o) ?_
    rw [mem_recounted_named hstarts]
    rintro (⟨ty, u, _, v, hstarts', -⟩ | ⟨k, _, _, hk', -⟩ | ⟨_, hk', -⟩)
    · exact hty ty (hstarts.unique hstarts').1
    · exact hk k hk'
    · exact hk _ hk'
  cases x with
  | keyword k => exact keyword_passage hinner hstarts.rest_lt hstarts
  | typedef ty =>
    refine (declaration_passage hstarts).congr fun o => ?_
    rw [mem_recounted_named hstarts]
    simp
  | external x => exact hsimple (by simp) (by simp) (hscan.trans (externalStatement_counted x t)).passage
  | unknown | reserved => exact hsimple (by simp) (by simp) hscan.passage
  | expression =>
    dsimp only
    rw [stateAfter_goTo]
    have hback : Counted s (move t s.cursor.skipWhite) := ⟨Cursor.skipWhite_counts _, hscan.positions⟩
    exact hsimple (by simp) (by simp) (hback.passage.note (noted_pos hback.counts .rfl) (expressionStatement_notes _ _))

theorem braced_passage (hinner : PassagesBelow decls s.cursor.rest.length) (hbrace : s.cursor.skipWhite.peek = '\x7b') :
    Passage (recounted decls s) s (stateAfter (statementWith decls (statementHere decls)) s) := by
  have hend : s.cursor.skipWhite.atEnd = false := Cursor.not_atEnd_of_peek (by rw [hbrace]; decide)
  have hshort := (Cursor.skip_before s.cursor.skipWhite Nat.one_pos).rest_lt hend
  have hwhite := (Cursor.skipWhite_upto s.cursor).rest_le
  rw [statementWith, stateAfter_ahead, if_neg (by rw [hend]; decide), if_neg (by rw [hbrace]; decide),
    if_pos (by rw [hbrace]; decide), stateAfter_goTo]
  have hopen : Counted s (move s (s.cursor.skipWhite.skip 1)) :=
    counted_move ((Cursor.skipWhite_counts _).trans (Cursor.skip_one_counts (by rw [hbrace]; decide)))
  refine (hopen.passage.trans (block_passage hinner ?_ (Nat.lt_succ_of_lt hshort))).congr fun o => ?_
  · exact Nat.lt_of_lt_of_le hshort hwhite
  · rw [mem_recounted_braced hbrace]
    simp

/-- What starts neither with a name nor with a brace is only read. -/
theorem plain_passage (hstart : ¬isNameStart s.cursor.skipWhite.peek = true)
    (hbrace : s.cursor.skipWhite.peek ≠ '\x7b') :
    Passage (recounted decls s) s (stateAfter (statementWith decls (statementHere decls)) s) := by
  have hskip : Counted s (move s (s.cursor.skipWhite.skip 1)) :=
    (counted_white s).trans (counted_move (Cursor.skip_one_counts (Cursor.not_newline (Cursor.skipWhite_stops _).1)))
  have hscan : Counted s (stateAfter (statementWith decls (statementHere decls)) s) := by
    rw [statementWith, stateAfter_ahead]
    split
    · exact counted_white s
    split
    · exact hskip
    rw [if_neg (by simpa using hbrace)]
    split
    · rw [stateAfter_goTo]
      exact hskip.trans (label_counted _)
    · exact counted_white s
  rw [recounted_plain hstart hbrace]
  exact hscan.passage

/-- By induction on what is left of the source. -/
theorem statementHere_passage (decls : Declarations ξ δ) (size : Nat) : PassagesBelow decls size := by
  induction size with
  | zero => exact fun s hs => nomatch hs
  | succ size ih =>
    intro s hs
    have hinner : PassagesBelow decls s.cursor.rest.length :=
      fun t ht => ih t (Nat.lt_of_lt_of_le ht (Nat.le_of_lt_succ hs))
    rw [stateAfter, statementHere_eq, ← stateAfter]
    by_cases hstart : isNameStart s.cursor.skipWhite.peek = true
    · exact named_passage hinner hstart
    by_cases hbrace : s.cursor.skipWhite.peek = '\x7b'
    · exact braced_passage hinner hbrace
    · exact plain_passage hstart hbrace

/-! ## Recorded positions -/

/-- The positions that compiling records, in the instructions or with the error. -/
def Outcome.positions : Outcome → List SourcePos
  | .compiled p => p.positions
  | .rejected e => [e.pos]
  | .beyondSource => []

/-- The line feeds in the source before an offset. -/
def linesBefore (source : String) (offset : Nat) : Nat := ((utf8 source).take offset).count lineFeed

/-- A position is recorded in an instruction, or where compiling stopped. -/
theorem recorded {decls : Declarations ξ δ} {source : String} {declared : δ} {p : SourcePos}
    (hp : p ∈ (compile decls source declared).1.positions) :
    let n := (Cursor.ofSource source).rest.length + 1
    let stop := stateAfter (statements (statementAt decls n) n) ⟨.ofSource source, .empty, declared⟩
    p ∈ stop.program.positions ∨ p = stop.cursor.pos := by
  intro n stop
  unfold compile at hp
  unfold stop stateAfter
  rw [StateT.run]
  dsimp only at hp
  generalize (ExceptT.run _ : StateM (Compilation δ) _) _ = outcome at hp ⊢
  obtain ⟨(e | _) | _, t⟩ := outcome
  · exact .inr (List.mem_singleton.mp hp)
  · cases hp
  · exact .inl hp

/-- Each position that is recorded has been passed. -/
theorem noted_of_recorded {decls : Declarations ξ δ} {source : String} {declared : δ} {p : SourcePos}
    (hp : p ∈ (compile decls source declared).1.positions) :
    ∃ d, Noted (recountedAlong decls inSource ⟨.ofSource source, .empty, declared⟩) (.ofSource source) d p := by
  let start : Compilation δ := ⟨.ofSource source, .empty, declared⟩
  let n := start.cursor.rest.length + 1
  let stop := stateAfter (statements (statementAt decls n) n) start
  have hpassage : Passage (recountedAlong decls inSource start) start stop := by
    unfold stop
    rw [stateAfter, statements_eq (Nat.lt_succ_self _), ← stateAfter]
    exact statements_passage (statementHere_passage decls n) (Nat.lt_succ_self _) (Nat.lt_succ_self _)
  refine ⟨stop.cursor, ?_⟩
  rcases recorded hp with hp | rfl
  · obtain ⟨noted, hnoted, hall⟩ := hpassage.noted
    rw [hnoted] at hp
    exact hall p hp
  · obtain ⟨m, hdrifts, hm⟩ := hpassage.drifts
    refine ⟨stop.cursor, m, rfl, hdrifts, .rfl, hm.trans ⟨?_, ?_⟩⟩
    · rintro ⟨o, ho⟩
      exact ⟨o, ho, (hpassage.within o ho).2⟩
    · rintro ⟨o, ho, -⟩
      exact ⟨o, ho⟩

/-- No line is too small, and a line is right exactly if no declaration before it has counted lines again. -/
theorem line_right_iff (decls : Declarations ξ δ) (source : String) (declared : δ) {p : SourcePos}
    (hp : p ∈ (compile decls source declared).1.positions) :
    linesBefore source p.offset ≤ p.line ∧
      (p.line = linesBefore source p.offset ↔ ∀ s t o,
        Sequel decls inSource ⟨.ofSource source, .empty, declared⟩ s → Reaches decls s t → Recounts decls t o →
          p.offset ≤ o) := by
  obtain ⟨d, e, n, rfl, hdrifts, -, hn⟩ := noted_of_recorded hp
  have hline : e.pos.line = linesBefore source e.pos.offset + n := by
    have hline := hdrifts.line
    rwa [show (Cursor.ofSource source).line = 0 from rfl, Nat.zero_add] at hline
  refine ⟨by omega, ?_⟩
  have hright : e.pos.line = linesBefore source e.pos.offset ↔ ¬0 < n := by omega
  rw [hright, hn]
  constructor
  · intro hno s t o hsequel hreaches ho
    exact Nat.not_lt.mp fun hlt => hno ⟨o, ⟨s, hsequel, t, hreaches, ho⟩, hlt⟩
  · rintro hall ⟨o, ⟨s, hsequel, t, hreaches, ho⟩, hlt⟩
    exact Nat.not_lt.mpr (hall s t o hsequel hreaches ho) hlt

/-- A declaration whose sign is in the next line, and a statement behind it. -/
theorem line_behind_first_value :
    let decls : Declarations Unit (List String) :=
      { meaning := fun known name =>
          if name = "int" then .typedef .integer else if known.elem name then .expression else .unknown
        declare := fun name _ known => name :: known
        external := fun _ _ known => (known, true) }
    ∃ p ∈ (compile decls "int x\n= 5; x;" []).1.positions, p ≠ ⟨linesBefore "int x\n= 5; x;" p.offset, p.offset⟩ ∧
      ∃ s t o, Sequel decls inSource ⟨.ofSource "int x\n= 5; x;", .empty, []⟩ s ∧ Reaches decls s t ∧
        Recounts decls t o ∧ o < p.offset := by
  intro decls
  have hp : (⟨2, 11⟩ : SourcePos) ∈ (compile decls "int x\n= 5; x;" []).1.positions := by decide +kernel
  have hwrong : ¬2 = linesBefore "int x\n= 5; x;" 11 := by decide +kernel
  refine ⟨_, hp, fun h => hwrong (congrArg SourcePos.line h), ?_⟩
  by_contra hnone
  refine hwrong ((line_right_iff decls "int x\n= 5; x;" [] hp).2.mpr fun s t o hsequel hreaches ho => ?_)
  exact Nat.not_lt.mp fun hlt => hnone ⟨s, t, o, hsequel, hreaches, ho, hlt⟩

end Compiler

end HostScript
