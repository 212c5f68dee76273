import HostScript.Proofs.Advancing
import Mathlib.Data.List.Forall2
/-!
# What compiling adds to a program

A statement adds code behind the program there is, and labels that stand within it. Targets are set late: a test
goes on to the next instruction until its statement is compiled, and `break` and `continue` go nowhere until
their loop claims them. But every jump that is there stays within the code of the statement it was compiled
for, and a label keeps its place among the instructions: the code of what is written before it comes before it.
So both hold of two statements one behind the other, and of the whole program.
-/

set_option autoImplicit false

namespace HostScript

/-! ## Labels in the source -/

/-- A label is set at the cursor: a colon, a name and a semicolon. -/
structure Cursor.SetsLabel (c : Cursor) (name : String) : Prop where
  colon : c.peek = ':'
  name : let start := (c.skip 1).skipWhite
    0 < start.nameLength ∧ name = start.textTo (start.skip start.nameLength)
  delimiter : let start := (c.skip 1).skipWhite
    (start.skip start.nameLength).skipWhite.peek = ';'

/-- A position parts the code, which is counted from `base`: before it is the code of what is written up to the
cursor, and from it on the code of what is written behind. -/
def Stands (c : Cursor) (base : Nat) (code : List Instruction) (ip : Int) : Prop :=
  ∃ before after, code = before ++ after ∧ ip = (base + before.length : Nat) ∧
    (∀ i ∈ before, i.pos.offset ≤ c.offset) ∧ ∀ i ∈ after, c.offset < i.pos.offset

/-- The instruction goes to its target, or may go there. -/
def Instruction.Jumps (i : Instruction) : Prop := i.opcode = .jump ∨ i.opcode = .jumpIfZero

/-! ## Stretches of code -/

/-- Code and labels that were compiled from what is written between two cursors. -/
structure Stretch (start stop : Cursor) (base : Nat) (code : List Instruction) (labels : List Label) : Prop where
  upto : start.Upto stop
  jumps : ∀ i ∈ code, i.Jumps → (base : Int) ≤ i.target ∧ i.target ≤ (base + code.length : Nat)
  places : ∀ i ∈ code, start.offset ≤ i.pos.offset ∧ i.pos.offset ≤ stop.offset
  labels : ∀ l ∈ labels, ∃ c, start.Upto c ∧ c.Before stop ∧ c.SetsLabel l.name ∧ Stands c base code l.ip

/-- The instruction is where it was, and its target is the same or in range. -/
structure Patched (low high : Int) (i j : Instruction) : Prop where
  pos : j.pos = i.pos
  target : j = i ∨ low ≤ j.target ∧ j.target ≤ high

namespace Stretch

variable {start mid stop : Cursor} {base : Nat} {code code' : List Instruction} {labels labels' : List Label}

theorem nil (h : start.Upto stop) : Stretch start stop base [] [] :=
  ⟨h, by simp, by simp, by simp⟩

theorem append (h : Stretch start mid base code labels) (h' : Stretch mid stop (base + code.length) code' labels') :
    Stretch start stop base (code ++ code') (labels ++ labels') where
  upto := h.upto.trans h'.upto
  jumps := by
    intro i hi hj
    rw [List.length_append]
    rcases List.mem_append.mp hi with hi | hi
    · have := h.jumps i hi hj
      omega
    · have := h'.jumps i hi hj
      omega
  places := by
    intro i hi
    have hmid := h.upto.offset
    have hstop := h'.upto.offset
    rcases List.mem_append.mp hi with hi | hi
    · have := h.places i hi
      omega
    · have := h'.places i hi
      omega
  labels := by
    intro l hl
    rcases List.mem_append.mp hl with hl | hl
    · obtain ⟨c, hstart, hmid, hset, before, after, rfl, hip, hbefore, hafter⟩ := h.labels l hl
      refine ⟨c, hstart, hmid.trans h'.upto, hset, before, after ++ code', List.append_assoc _ _ _, hip, hbefore, ?_⟩
      intro i hi
      rcases List.mem_append.mp hi with hi | hi
      · exact hafter i hi
      · exact Nat.lt_of_lt_of_le hmid.offset (h'.places i hi).1
    · obtain ⟨c, hmid, hstop, hset, before, after, rfl, hip, hbefore, hafter⟩ := h'.labels l hl
      refine ⟨c, h.upto.trans hmid, hstop, hset, code ++ before, after, (List.append_assoc _ _ _).symm, ?_, ?_, hafter⟩
      · rw [hip, List.length_append, Nat.add_assoc]
      · intro i hi
        rcases List.mem_append.mp hi with hi | hi
        · exact Nat.le_trans (h.places i hi).2 hmid.offset
        · exact hbefore i hi

/-- One more instruction, for what is written last. -/
theorem snoc {i : Instruction} (h : Stretch start stop base code labels)
    (hjump : i.Jumps → (base : Int) ≤ i.target ∧ i.target ≤ (base + code.length + 1 : Nat))
    (hplace : start.offset ≤ i.pos.offset ∧ i.pos.offset ≤ stop.offset)
    (hlast : labels = [] ∨ i.pos.offset = stop.offset) : Stretch start stop base (code ++ [i]) labels where
  upto := h.upto
  jumps := by
    intro j hj hjumps
    rw [List.length_append, List.length_singleton]
    rcases List.mem_append.mp hj with hj | hj
    · have := h.jumps j hj hjumps
      omega
    · obtain rfl := List.mem_singleton.mp hj
      exact hjump hjumps
  places := by
    intro j hj
    rcases List.mem_append.mp hj with hj | hj
    · exact h.places j hj
    · rwa [List.mem_singleton.mp hj]
  labels := by
    intro l hl
    obtain ⟨c, hstart, hstop, hset, before, after, rfl, hip, hbefore, hafter⟩ := h.labels l hl
    have hend : i.pos.offset = stop.offset := hlast.resolve_left (List.ne_nil_of_mem hl)
    refine ⟨c, hstart, hstop, hset, before, after ++ [i], List.append_assoc _ _ _, hip, hbefore, ?_⟩
    intro j hj
    rcases List.mem_append.mp hj with hj | hj
    · exact hafter j hj
    · rw [List.mem_singleton.mp hj, hend]
      exact hstop.offset

/-- Setting targets within the code moves nothing. -/
theorem patch (h : Stretch start stop base code labels)
    (hp : List.Forall₂ (Patched base (base + code.length : Nat)) code code') :
    Stretch start stop base code' labels := by
  have hmem : ∀ j ∈ code', ∃ i ∈ code, Patched base (base + code.length : Nat) i j := by
    intro j hj
    obtain ⟨n, hn, rfl⟩ := List.getElem_of_mem hj
    have hn' : n < code.length := hp.length_eq ▸ hn
    exact ⟨code[n], List.getElem_mem _, (List.forall₂_iff_get.mp hp).2 n hn' hn⟩
  have hoffset : ∀ {l l' : List Instruction} {P : Nat → Prop},
      List.Forall₂ (Patched base (base + code.length : Nat)) l l' → (∀ i ∈ l, P i.pos.offset) →
        ∀ j ∈ l', P j.pos.offset := by
    intro l l' P hl
    induction hl with
    | nil => exact fun _ j hj => nomatch hj
    | @cons i j l l' hij _ ih =>
      rw [List.forall_mem_cons, List.forall_mem_cons, hij.pos]
      exact fun ⟨hi, hrest⟩ => ⟨hi, ih hrest⟩
  refine ⟨h.upto, fun j hj hjumps => ?_, fun j hj => ?_, fun l hl => ?_⟩
  · obtain ⟨i, hi, hij⟩ := hmem j hj
    rw [← hp.length_eq]
    rcases hij.target with rfl | htarget
    · exact h.jumps j hi hjumps
    · exact htarget
  · obtain ⟨i, hi, hij⟩ := hmem j hj
    rw [hij.pos]
    exact h.places i hi
  · obtain ⟨c, hstart, hstop, hset, before, after, rfl, hip, hbefore, hafter⟩ := h.labels l hl
    obtain ⟨before', hbefore', after', hafter', rfl⟩ :
        ∃ before', List.Forall₂ (Patched base (base + (before ++ after).length : Nat)) before before' ∧
          ∃ after', List.Forall₂ (Patched base (base + (before ++ after).length : Nat)) after after' ∧
            code' = before' ++ after' :=
      ⟨_, (List.forall₂_take_append _ _ _ hp.flip).flip, _, (List.forall₂_drop_append _ _ _ hp.flip).flip,
        (List.take_append_drop _ _).symm⟩
    exact ⟨c, hstart, hstop, hset, before', after', rfl, hbefore'.length_eq ▸ hip,
      hoffset (P := (· ≤ c.offset)) hbefore' hbefore, hoffset (P := (c.offset < ·)) hafter' hafter⟩

end Stretch

namespace Compiler

variable {ξ δ α β : Type} {decls : Declarations ξ δ} {statement : Compile δ Unit} {s t u v : Compilation δ} {c : Cursor}
  {code code' : List Instruction} {labels labels' : List Label}

/-! ## Additions -/

/-- From one state to the other, code and labels are added to the program. -/
structure Adds (s : Compilation δ) (code : List Instruction) (labels : List Label) (t : Compilation δ) : Prop where
  stretch : Stretch s.cursor t.cursor s.program.size code labels
  instructions : t.program.instructions = s.program.instructions ++ code
  labels : t.program.labels = s.program.labels ++ labels
  distinct : (s.program.labels.map Label.name).Nodup → (t.program.labels.map Label.name).Nodup

/-- Something, or nothing, is added to the program. -/
def Extends (s t : Compilation δ) : Prop := ∃ code labels, Adds s code labels t

theorem Adds.size (h : Adds s code labels t) : t.program.size = s.program.size + code.length := by
  rw [Program.size, h.instructions, List.length_append, Program.size]

theorem Adds.trans (h : Adds s code labels t) (h' : Adds t code' labels' u) :
    Adds s (code ++ code') (labels ++ labels') u where
  instructions := by rw [h'.instructions, h.instructions, List.append_assoc]
  labels := by rw [h'.labels, h.labels, List.append_assoc]
  stretch := h.stretch.append (h.size ▸ h'.stretch)
  distinct := h'.distinct ∘ h.distinct

theorem Extends.trans (h : Extends s t) (h' : Extends t u) : Extends s u := by
  obtain ⟨code, labels, h⟩ := h
  obtain ⟨code', labels', h'⟩ := h'
  exact ⟨_, _, h.trans h'⟩

/-- Moving on adds nothing. -/
theorem adds_nothing (hcursor : s.cursor.Upto t.cursor) (hprogram : t.program = s.program) : Adds s [] [] t where
  instructions := by rw [hprogram, List.append_nil]
  labels := by rw [hprogram, List.append_nil]
  stretch := .nil hcursor
  distinct := by rw [hprogram]; exact id

theorem Read.adds (h : Read s t) : Adds s [] [] t := adds_nothing h.1 (by rw [h.2]; rfl)

theorem Read.extends (h : Read s t) : Extends s t := ⟨_, _, h.adds⟩

/-- What is only read does not count. -/
theorem Adds.read (h : Adds s code labels t) (h' : Read t u) : Adds s code labels u := by
  simpa using h.trans h'.adds

theorem Extends.upto (h : Extends s t) : s.cursor.Upto t.cursor := by
  obtain ⟨_, _, h⟩ := h
  exact h.stretch.upto

/-! ## Emitting -/

theorem emit_done {opcode : Opcode} {target : Option Int} {text : String} {pos : SourcePos} {ip : Nat}
    (h : Does (emit opcode target text pos) s ip t) :
    ip = s.program.size ∧
      t = { s with program := ⟨s.program.instructions ++ [⟨opcode, target.getD (s.program.size + 1), text, pos⟩],
        s.program.labels⟩ } := by
  cases h
  exact ⟨rfl, rfl⟩

/-- One more instruction, which does not jump out of the code. -/
theorem Adds.emit {opcode : Opcode} {target : Option Int} {text : String} {pos : SourcePos} {ip : Nat}
    (h : Adds s code labels t) (hd : Does (Compiler.emit opcode target text pos) t ip u)
    (htarget : ∀ a ∈ target, (opcode = .jump ∨ opcode = .jumpIfZero) →
      (s.program.size : Int) ≤ a ∧ a ≤ (s.program.size + code.length + 1 : Nat))
    (hplace : s.cursor.offset ≤ pos.offset ∧ pos.offset ≤ t.cursor.offset)
    (hlast : labels = [] ∨ pos.offset = t.cursor.offset) :
    ip = s.program.size + code.length ∧
      Adds s (code ++ [⟨opcode, target.getD (s.program.size + code.length + 1 : Nat), text, pos⟩]) labels u := by
  obtain ⟨rfl, rfl⟩ := emit_done hd
  refine ⟨h.size, h.stretch.snoc (fun hjumps => ?_) hplace hlast, ?_, h.labels, h.distinct⟩
  · cases target with
    | none =>
      simp only [Option.getD_none]
      omega
    | some a => exact htarget a rfl hjumps
  · rw [h.instructions, h.size, List.append_assoc]
    rfl

/-! ## Patching -/

theorem modify_behind (front : List Instruction) (f : Instruction → Instruction) (k : Nat) :
    (front ++ code).modify (front.length + k) f = front ++ code.modify k f := by
  induction front with
  | nil => simp
  | cons i front ih => simpa [Nat.add_right_comm] using ih

theorem modify_patched {low high : Int} {f : Instruction → Instruction} (hf : ∀ i, Patched low high i (f i)) (k : Nat) :
    List.Forall₂ (Patched low high) code (code.modify k f) := by
  refine List.forall₂_iff_get.mpr ⟨(List.length_modify ..).symm, fun n hn hn' => ?_⟩
  rw [List.get_eq_getElem, List.get_eq_getElem, List.getElem_modify]
  split
  · exact hf _
  · exact ⟨rfl, .inl rfl⟩

theorem patched_refl {low high : Int} (code : List Instruction) : List.Forall₂ (Patched low high) code code :=
  List.forall₂_same.mpr fun _ _ => ⟨rfl, .inl rfl⟩

theorem map_patched {low high : Int} {f : Instruction → Instruction} (hf : ∀ i, Patched low high i (f i)) (k : Nat) :
    List.Forall₂ (Patched low high) code (code.take k ++ (code.drop k).map f) := by
  have hrest : List.Forall₂ (Patched low high) (code.drop k) ((code.drop k).map f) := by
    rw [List.forall₂_map_right_iff]
    exact List.forall₂_same.mpr fun i _ => hf i
  simpa using List.rel_append (patched_refl (code.take k)) hrest

theorem Adds.patch (h : Adds s code labels t)
    (hp : List.Forall₂ (Patched s.program.size (s.program.size + code.length : Nat)) code code') :
    Adds s code' labels
      { t with program := { t.program with instructions := s.program.instructions ++ code' } } where
  instructions := rfl
  labels := h.labels
  stretch := h.stretch.patch hp
  distinct := h.distinct

/-- The target of an added instruction is set within the added code. -/
theorem Adds.setTarget {ip target : Nat} (h : Adds s code labels t) (hip : s.program.size ≤ ip)
    (htarget : s.program.size ≤ target ∧ target ≤ s.program.size + code.length)
    (hd : Does (Compiler.setTarget ip target) t () u) :
    u.cursor = t.cursor ∧ ∃ code', code'.length = code.length ∧ Adds s code' labels u := by
  obtain ⟨k, rfl⟩ := Nat.exists_eq_add_of_le hip
  obtain ⟨-, rfl⟩ := (Does.modify _ _).unique hd
  have hpatched : ∀ i : Instruction, Patched s.program.size (s.program.size + code.length : Nat) i
      { i with target := target } := fun i => ⟨rfl, .inr (by dsimp only; omega)⟩
  have hpatch := h.patch (modify_patched hpatched k)
  rw [← modify_behind, ← h.instructions] at hpatch
  exact ⟨rfl, _, List.length_modify _ code k, hpatch⟩

/-- Added code is changed from a position on, to jumps within it. -/
theorem Adds.patchFrom {start : Nat} {f : Instruction → Instruction} (h : Adds s code labels t)
    (hstart : s.program.size ≤ start)
    (hf : ∀ i, Patched s.program.size (s.program.size + code.length : Nat) i (f i))
    (hd : Does (Compiler.patchFrom start f) t () u) : u.cursor = t.cursor ∧ ∃ code', Adds s code' labels u := by
  obtain ⟨k, rfl⟩ := Nat.exists_eq_add_of_le hstart
  obtain ⟨-, rfl⟩ := (Does.modify _ _).unique hd
  have hcode : t.program.instructions.take (s.program.size + k) ++
      (t.program.instructions.drop (s.program.size + k)).map f =
        s.program.instructions ++ (code.take k ++ (code.drop k).map f) := by
    rw [h.instructions, Program.size, List.take_length_add_append, List.drop_length_add_append, List.append_assoc]
  have hpatch := h.patch (map_patched hf k)
  rw [← hcode] at hpatch
  exact ⟨rfl, _, hpatch⟩

/-! ## Statements -/

/-- What stands from the cursor on was taken, and compiled. -/
def Advances (c : Cursor) (s t : Compilation δ) : Prop := c.Before t.cursor ∧ Extends (move s c) t

/-- The states before may be of any declarations. -/
theorem Adds.of_eq (h : Adds s code labels t) (hcursor : u.cursor.Upto s.cursor) (hprogram : s.program = u.program) :
    Adds u code labels t := (adds_nothing hcursor hprogram).trans h

theorem Extends.of_eq (h : Extends s t) (hcursor : u.cursor.Upto s.cursor) (hprogram : s.program = u.program) :
    Extends u t := by
  obtain ⟨code, labels, h⟩ := h
  exact ⟨code, labels, h.of_eq hcursor hprogram⟩

theorem Advances.of_eq (h : Advances c s t) {d : Cursor} (hcursor : d.Upto c) (hprogram : s.program = u.program) :
    Advances d u t := ⟨hcursor.before h.1, h.2.of_eq hcursor hprogram⟩

theorem Taken.advances (h : Taken s t) (hc : c.Upto s.cursor) : Advances c s t :=
  ⟨hc.before h.1, _, _, h.read.adds.of_eq hc rfl⟩

/-- A single instruction, at the start of a statement. -/
theorem Taken.emits {opcode : Opcode} {target : Option Int} {text : String} {ip : Nat} (h : Taken s t)
    (hc : c.Upto s.cursor) (htarget : opcode.isPending = true ∨ target = none ∨ opcode = .call)
    (hd : Does (emit opcode target text c.pos) t ip u) :
    c.Before u.cursor ∧ ip = s.program.size ∧ ∃ i, Adds (move s c) [i] [] u := by
  have hbehind : c.Before t.cursor := hc.before h.1
  have hread : Adds (move s c) [] [] t := h.read.adds.of_eq hc rfl
  have hstay : ∀ a ∈ target, (opcode = .jump ∨ opcode = .jumpIfZero) →
      (s.program.size : Int) ≤ a ∧ a ≤ (s.program.size + 0 + 1 : Nat) := by
    rintro a ha hjumps
    rcases htarget with hpending | rfl | rfl
    · rcases hjumps with rfl | rfl <;> cases hpending
    · cases ha
    · rcases hjumps with hjumps | hjumps <;> cases hjumps
  obtain ⟨hip, hadds⟩ := hread.emit hd hstay ⟨Nat.le_refl _, hbehind.upto.offset⟩ (.inl rfl)
  obtain ⟨-, rfl⟩ := emit_done hd
  exact ⟨hbehind, hip, _, hadds⟩

theorem expressionStatement_advances (h : Does (expressionStatement c.pos) s () t) (hc : c.Upto s.cursor) :
    Advances c s t := by
  obtain ⟨text, s₁, hexpr, h⟩ := h.of_bind
  obtain ⟨_, s₂, hdelim, h⟩ := h.of_bind
  obtain ⟨ip, s₃, hemit, h⟩ := h.of_bind
  obtain ⟨-, rfl⟩ := h.of_pure
  obtain ⟨hbefore, -, i, hadds⟩ :=
    ((expression_read hexpr).taken (expect_taken hdelim)).emits hc (.inr (.inl rfl)) hemit
  exact ⟨hbefore, _, _, hadds⟩

theorem condition_adds {ip : Nat} (h : Does (condition c.pos) s ip t) (hc : c.Upto s.cursor) :
    c.Before t.cursor ∧ ip = s.program.size ∧ ∃ i, Adds (move s c) [i] [] t := by
  obtain ⟨_, s₁, hparen, h⟩ := h.of_bind
  obtain ⟨text, s₂, hexpr, h⟩ := h.of_bind
  have hread := (expect_taken hparen).trans (expression_read hexpr)
  have hemit := Does.after (.modify _ _) h
  exact (hread.trans (read_move (Cursor.skip_upto s₂.cursor 1))).emits hc (.inr (.inl rfl)) hemit

theorem checkFree_done {name : String} (h : Does (checkFree decls name) s () t) :
    t = s ∧ s.program.labelIp? name = none := by
  have h := (Does.get s).after h
  extract_lets known at h
  split at h
  · exact absurd h not_does_fail
  · rename_i hfree
    simp only [Bool.or_eq_true, not_or, Bool.not_eq_true, Option.isSome_eq_false_iff, Option.isNone_iff_eq_none] at hfree
    exact ⟨h.of_pure.2, hfree.1⟩

/-- A name without a position is the name of no label. -/
theorem not_mem_of_labelIp {p : Program} {name : String} (h : p.labelIp? name = none) :
    name ∉ p.labels.map Label.name := by
  rw [Program.labelIp?, Option.map_eq_none_iff, List.find?_eq_none] at h
  rintro hmem
  obtain ⟨l, hl, rfl⟩ := List.mem_map.mp hmem
  exact h l hl (beq_self_eq_true _)

theorem label_advances (h : Does (label decls) (move s (c.skip 1)) () t) (hcolon : c.peek = ':') :
    Advances c s t := by
  obtain ⟨name, s₁, hname, h⟩ := h.of_bind
  obtain ⟨_, s₂, hfree, h⟩ := h.of_bind
  obtain ⟨_, s₃, hdelim, h⟩ := h.of_bind
  obtain ⟨hsame, hnone⟩ := checkFree_done hfree
  rw [hsame] at hdelim
  have hbehind := (name_taken hname).trans (expect_taken hdelim).read
  obtain ⟨hpos, hlabel, hs₁⟩ := name_done hname
  obtain ⟨hpeek, -⟩ := expect_done hdelim
  rw [hs₁] at hnone hpeek
  have hset : c.SetsLabel name := ⟨hcolon, ⟨hpos, hlabel⟩, hpeek⟩
  have hbefore : c.Before s₃.cursor := (Cursor.skip_upto c 1).before hbehind.1
  have hprogram : s₃.program = s.program := by
    rw [hbehind.2]
    rfl
  obtain ⟨-, rfl⟩ := (Does.modify _ _).unique h
  refine ⟨hbefore, [], [⟨name, s.program.size⟩], ⟨⟨hbefore.upto, by simp, by simp, ?_⟩, ?_, ?_, ?_⟩⟩
  · intro l hl
    rw [List.mem_singleton.mp hl]
    exact ⟨c, .rfl, hbefore, hset, [], [], rfl, rfl, by simp, by simp⟩
  · change s₃.program.instructions = _
    rw [hprogram]
    exact (List.append_nil _).symm
  · change s₃.program.labels ++ [⟨name, s₃.program.size⟩] = _
    rw [hprogram]
    rfl
  · change _ → ((s₃.program.labels ++ [(⟨name, s₃.program.size⟩ : Label)]).map Label.name).Nodup
    rw [hprogram, List.map_append, List.nodup_append]
    refine fun hdistinct => ⟨hdistinct, by simp, fun a ha b hb => ?_⟩
    rw [List.mem_singleton.mp hb]
    exact ne_of_mem_of_not_mem ha (not_mem_of_labelIp hnone)

theorem declaration_advances {ty : ValueType} (h : Does (declaration decls ty) s () t) (hc : c.Upto s.cursor) :
    Advances c s t := by
  have h := (getCursor_does _).after ((skipWhite_does s).after h)
  obtain ⟨name, s₁, hname, h⟩ := h.of_bind
  obtain ⟨_, s₂, hfree, h⟩ := h.of_bind
  rw [(checkFree_done hfree).1] at h
  have hstart : c.Upto s.cursor.skipWhite := hc.trans (Cursor.skipWhite_upto _)
  have htaken := (read_skipWhite s).taken (name_taken hname)
  have h := Does.after (.modify _ _) h
  have h := (skipWhite_does _).after h
  have h := (getCursor_does _).after h
  dsimp only at h
  split at h
  · -- the assignment is read again from the name on
    have h := Does.after (.modify _ _) h
    have hexpr := expressionStatement_advances (c := s.cursor.skipWhite) h (.of_eq rfl rfl)
    refine hexpr.of_eq hstart ?_
    rw [htaken.2]
    rfl
  · have hdelim := (expect_taken h).advances (c := c)
      ((hc.before htaken.1).upto.trans (Cursor.skipWhite_upto s₁.cursor))
    refine hdelim.of_eq .rfl ?_
    rw [htaken.2]
    rfl

theorem externalStatement_advances {x : ξ} (h : Does (externalStatement decls x) s () t) (hc : c.Upto s.cursor) :
    Advances c s t := by
  obtain ⟨text, s₁, htext, h⟩ := h.of_bind
  have htaken := externalText_taken htext
  have h := Does.after (.modify _ _) ((Does.get _).after h)
  have hprogram : s₁.program = s.program := by
    rw [htaken.2]
    rfl
  split at h
  · exact absurd h not_does_fail
  · obtain ⟨-, rfl⟩ := h.of_pure
    exact ⟨hc.before htaken.1, _, _, adds_nothing (hc.before htaken.1).upto hprogram⟩

theorem elseFollows_read {follows : Bool} (h : Does (elseFollows decls) s follows t) : Read s t := by
  have h := (getCursor_does _).after ((skipWhite_does s).after h)
  dsimp only at h
  split at h
  · obtain ⟨-, rfl⟩ := h.of_pure
    exact read_skipWhite s
  · have h := (Does.get _).after h
    split at h
    · obtain ⟨-, rfl⟩ := ((setCursor_does _ _).after h).of_pure
      exact read_move ((Cursor.skipWhite_upto _).trans (Cursor.skip_upto _ _))
    · obtain ⟨-, rfl⟩ := h.of_pure
      exact read_skipWhite s

/-! ## One statement after another -/

/-- From one state to another this holds where something is read, and of one step after another. -/
structure Chained (R : Compilation δ → Compilation δ → Prop) : Prop where
  read {s t : Compilation δ} : Read s t → R s t
  trans {s t u : Compilation δ} : R s t → R t u → R s u

theorem extends_chained : Chained (Extends (δ := δ)) := ⟨Read.extends, Extends.trans⟩

section Chained

variable {R : Compilation δ → Compilation δ → Prop} (hR : Chained R)
  (hstatement : ∀ s t, Does statement s () t → R s t)

include hR hstatement

theorem Chained.of_block {n : Nat} (h : Does (block statement n) s () t) : R s t := by
  induction n generalizing s with
  | zero => exact absurd h not_does_fail
  | succ n ih =>
    have h := (getCursor_does _).after ((skipWhite_does s).after h)
    refine hR.trans (hR.read (read_skipWhite s)) ?_
    dsimp only at h
    split at h
    · exact absurd h not_does_failing
    · split at h
      · obtain ⟨-, rfl⟩ := (setCursor_does _ _).unique h
        exact hR.read (read_move (Cursor.skip_upto _ 1))
      · obtain ⟨_, s₁, hfirst, h⟩ := Does.of_bind h
        exact hR.trans (hstatement _ _ hfirst) (ih h)

theorem Chained.of_statements {n : Nat} (h : Does (statements statement n) s () t) : R s t := by
  induction n generalizing s with
  | zero =>
    obtain ⟨-, rfl⟩ := h.of_pure
    exact hR.read (read_move .rfl)
  | succ n ih =>
    obtain ⟨_, s₁, hfirst, h⟩ := h.of_bind
    have h := (getCursor_does _).after ((skipWhite_does _).after h)
    have hread := hR.trans (hstatement _ _ hfirst) (hR.read (read_skipWhite s₁))
    split at h
    · obtain ⟨-, rfl⟩ := h.of_pure
      exact hread
    · exact hR.trans hread (ih h)

end Chained

/-! ## Nested statements -/

section Nested

variable (hstatement : ∀ s t, Does statement s () t → Extends s t)

include hstatement

/-- The test of a condition or a loop, with the statement behind it. -/
theorem body_adds {test : Nat} (hcond : Does (condition c.pos) s test t) (hc : c.Upto s.cursor)
    (hbody : Does statement t () u) :
    c.Before u.cursor ∧ test = s.program.size ∧ ∃ code labels, 0 < code.length ∧ Adds (move s c) code labels u := by
  obtain ⟨hbefore, htest, i, hadds⟩ := condition_adds hcond hc
  obtain ⟨code, labels, hbody⟩ := hstatement _ _ hbody
  exact ⟨hbefore.trans hbody.stretch.upto, htest, i :: code, labels, Nat.succ_pos _, hadds.trans hbody⟩

theorem ifStatement_advances (h : Does (ifStatement decls statement c.pos) s () t) (hc : c.Upto s.cursor) :
    Advances c s t := by
  obtain ⟨test, s₁, hcond, h⟩ := h.of_bind
  obtain ⟨_, s₂, hthen, h⟩ := h.of_bind
  obtain ⟨hbefore, rfl, code, labels, hpos, hadds⟩ := body_adds hstatement hcond hc hthen
  -- the test goes behind the statement
  have h := Does.after (show Does nextIp s₂ s₂.program.size s₂ from rfl) h
  obtain ⟨_, s₃, hset, h⟩ := h.of_bind
  have hsize : (move s c).program.size = s.program.size := rfl
  obtain ⟨hcursor, code₃, hlen₃, hadds₃⟩ :=
    hadds.setTarget (Nat.le_refl _) ⟨by rw [hadds.size]; omega, Nat.le_of_eq hadds.size⟩ hset
  -- the jump over an `else` is there before it is known that there is one
  have h := (getCursor_does s₃).after h
  obtain ⟨skip, s₄, hemit, h⟩ := h.of_bind
  have hplace : c.offset ≤ s₃.cursor.offset := hcursor ▸ hbefore.upto.offset
  obtain ⟨hskip, hadds₄⟩ := hadds₃.emit hemit (by simp) ⟨hplace, Nat.le_refl _⟩ (.inr rfl)
  have hcursor₄ : s₄.cursor = s₃.cursor := by
    obtain ⟨-, rfl⟩ := emit_done hemit
    rfl
  obtain ⟨follows, s₅, helse, h⟩ := h.of_bind
  have hadds₅ := hadds₄.read (elseFollows_read helse)
  have hbefore₅ : c.Before s₅.cursor := by
    refine Cursor.Before.trans ?_ (elseFollows_read helse).1
    rwa [hcursor₄, hcursor]
  cases follows with
  | false =>
    obtain ⟨-, rfl⟩ := Does.of_pure h
    exact ⟨hbefore₅, _, _, hadds₅⟩
  | true =>
    -- the test goes to the other statement then, and the jump behind it
    obtain ⟨_, s₆, hother, h⟩ := Does.of_bind h
    obtain ⟨code₆, labels₆, hadds₆⟩ := hstatement _ _ hother
    have hall := hadds₅.trans hadds₆
    obtain ⟨_, s₇, hset₇, h⟩ := h.of_bind
    obtain ⟨hcursor₇, code₇, hlen₇, hadds₇⟩ :=
      hall.setTarget (Nat.le_refl _) (by simp only [List.length_append, List.length_singleton]; omega) hset₇
    have h := Does.after (show Does nextIp s₇ s₇.program.size s₇ from rfl) h
    obtain ⟨hcursor₈, code₈, -, hadds₈⟩ :=
      hadds₇.setTarget (by omega) ⟨by rw [hadds₇.size]; omega, Nat.le_of_eq hadds₇.size⟩ h
    refine ⟨?_, _, _, hadds₈⟩
    rw [hcursor₈, hcursor₇]
    exact hbefore₅.trans hadds₆.stretch.upto

theorem whileStatement_advances (h : Does (whileStatement statement c.pos) s () t) (hc : c.Upto s.cursor) :
    Advances c s t := by
  obtain ⟨test, s₁, hcond, h⟩ := h.of_bind
  obtain ⟨_, s₂, hbody, h⟩ := h.of_bind
  obtain ⟨hbefore, rfl, code, labels, hpos, hadds⟩ := body_adds hstatement hcond hc hbody
  have h := (getCursor_does s₂).after h
  obtain ⟨_, s₃, hemit, h⟩ := h.of_bind
  have hsize : (move s c).program.size = s.program.size := rfl
  obtain ⟨-, hadds₃⟩ := hadds.emit hemit (by rintro a ⟨⟩ -; omega) ⟨hbefore.upto.offset, Nat.le_refl _⟩ (.inr rfl)
  have hcursor : s₃.cursor = s₂.cursor := by
    obtain ⟨-, rfl⟩ := emit_done hemit
    rfl
  have h := Does.after (show Does nextIp s₃ s₃.program.size s₃ from rfl) h
  obtain ⟨_, s₄, hset, h⟩ := h.of_bind
  have hsize₃ := hadds₃.size
  obtain ⟨hcursor₄, code₄, hlen₄, hadds₄⟩ :=
    hadds₃.setTarget (Nat.le_refl _) ⟨by omega, by omega⟩ hset
  -- what the loop claims goes to its test or behind it
  have hclaim : ∀ i, Patched (move s c).program.size ((move s c).program.size + code₄.length : Nat) i
      (claim s.program.size s₃.program.size i) := by
    intro i
    unfold claim
    split
    · exact ⟨rfl, .inr (by dsimp only; omega)⟩
    · exact ⟨rfl, .inr (by dsimp only; omega)⟩
    · exact ⟨rfl, .inl rfl⟩
  obtain ⟨hcursor₅, code₅, hadds₅⟩ := hadds₄.patchFrom (by omega) hclaim h
  refine ⟨?_, _, _, hadds₅⟩
  rwa [hcursor₅, hcursor₄, hcursor]

theorem keyword_advances {k : Keyword} (h : Does (keyword decls statement k c.pos) s () t) (hc : c.Upto s.cursor) :
    Advances c s t := by
  have hemits : ∀ {u v : Compilation δ} {opcode : Opcode} {target : Option Int} {text : String}, Taken s u →
      opcode.isPending = true ∨ target = none ∨ opcode = .call →
      Does (do let _ ← emit opcode target text c.pos) u () v → Advances c s v := by
    intro u v opcode target text htaken htarget h
    obtain ⟨ip, w, hemit, h⟩ := h.of_bind
    obtain ⟨-, rfl⟩ := h.of_pure
    obtain ⟨hbefore, -, i, hadds⟩ := htaken.emits hc htarget hemit
    exact ⟨hbefore, _, _, hadds⟩
  cases k with
  | if_ => exact ifStatement_advances hstatement h hc
  | while_ => exact whileStatement_advances hstatement h hc
  | break_ | continue_ =>
    obtain ⟨_, s₁, hdelim, h⟩ := h.of_bind
    exact hemits (expect_taken hdelim) (.inl rfl) h
  | goto =>
    obtain ⟨_, s₁, hname, h⟩ := h.of_bind
    obtain ⟨_, s₂, hdelim, h⟩ := h.of_bind
    exact hemits ((name_taken hname).trans (expect_taken hdelim).read) (.inl rfl) h
  | gosub =>
    obtain ⟨_, s₁, hname, h⟩ := h.of_bind
    obtain ⟨_, s₂, hdelim, h⟩ := h.of_bind
    exact hemits ((name_taken hname).trans (expect_taken hdelim).read) (.inr (.inr rfl)) h
  | return_ =>
    obtain ⟨_, s₁, hdelim, h⟩ := h.of_bind
    exact hemits (expect_taken hdelim) (.inr (.inl rfl)) h
  | else_ => exact absurd h not_does_fail
  | external => exact absurd h not_does_fail

/-- A statement takes something, unless there is nothing left but white space. -/
theorem statementWith_done (h : Does (statementWith decls statement) s () t) :
    s.cursor.skipWhite.atEnd = true ∧ Read s t ∨ Advances s.cursor s t := by
  have h := (getCursor_does _).after ((skipWhite_does s).after h)
  have hwhite := Cursor.skipWhite_upto s.cursor
  generalize hcursor : s.cursor.skipWhite = c at h hwhite
  have hadvances : ∀ {u v : Compilation δ}, u.program = s.program → Advances c u v → Advances s.cursor s v :=
    fun hprogram h => h.of_eq hwhite hprogram
  rw [move_cursor] at h
  split at h
  · rename_i hend
    obtain ⟨-, rfl⟩ := h.of_pure
    exact .inl ⟨hend, read_move hwhite⟩
  refine .inr ?_
  split at h
  · obtain ⟨-, rfl⟩ := (setCursor_does _ _).unique h
    exact hadvances rfl ((taken_move (s := move s c) (Cursor.skip_before c Nat.one_pos)).advances .rfl)
  split at h
  · have h := (setCursor_does _ _).after h
    have hblock := extends_chained.of_block hstatement h
    refine hadvances (u := move s c) rfl ⟨(Cursor.skip_before c Nat.one_pos).trans hblock.upto, ?_⟩
    exact hblock.of_eq (Cursor.skip_upto c 1) rfl
  split at h
  · rename_i hcolon
    exact hadvances rfl (label_advances ((setCursor_does _ _).after h) (by simpa using hcolon))
  split at h
  · obtain ⟨first, s₁, hname, h⟩ := Does.of_bind h
    have htaken := name_taken hname
    have hprogram : s₁.program = s.program := by
      rw [htaken.2]
      rfl
    have hfirst : c.Upto s₁.cursor := htaken.1.upto
    have h := (Does.get _).after h
    split at h
    · exact absurd h not_does_fail
    · exact hadvances hprogram (keyword_advances hstatement h hfirst)
    · exact hadvances hprogram (externalStatement_advances h hfirst)
    · exact absurd h not_does_fail
    · exact hadvances hprogram (declaration_advances h hfirst)
    · exact hadvances (u := move s₁ c) hprogram (expressionStatement_advances ((setCursor_does s₁ c).after h) .rfl)
  · exact absurd h not_does_fail

theorem statementWith_extends (h : Does (statementWith decls statement) s () t) : Extends s t := by
  rcases statementWith_done hstatement h with ⟨-, hread⟩ | ⟨-, hextends⟩
  · exact hread.extends
  · exact hextends

end Nested

theorem statementAt_extends (n : Nat) {s t : Compilation δ} (h : Does (statementAt decls n) s () t) :
    Extends s t := by
  induction n generalizing s t with
  | zero => exact absurd h not_does_fail
  | succ n ih => exact statementWith_extends (fun _ _ => ih) h

/-- A source is compiled by its statements, one after another. -/
theorem compile_does {source : String} {declared declared' : δ} {p : Program}
    (h : compile decls source declared = (.compiled p, declared')) :
    ∃ n t, Does (statements (statementAt decls n) n) ⟨.ofSource source, .empty, declared⟩ () t ∧ t.program = p ∧
      t.declared = declared' := by
  unfold compile at h
  dsimp only at h
  generalize (Cursor.ofSource source).rest.length + 1 = depth at h
  rcases hrun : (statements (statementAt decls depth) depth).run.run ⟨.ofSource source, .empty, declared⟩ with ⟨r, t⟩
  rw [StateT.run] at hrun
  rw [hrun] at h
  obtain (e | _) | _ := r
  · cases h
  · cases h
  · cases h
    exact ⟨depth, t, hrun, rfl, rfl⟩

/-- A program that was compiled is what its source adds to none. -/
theorem compile_adds {source : String} {declared declared' : δ} {p : Program}
    (h : compile decls source declared = (.compiled p, declared')) :
    ∃ t, Adds ⟨.ofSource source, .empty, declared⟩ p.instructions p.labels t := by
  obtain ⟨n, t, hdoes, rfl, -⟩ := compile_does h
  obtain ⟨code, labels, hadds⟩ := extends_chained.of_statements (fun _ _ => statementAt_extends n) hdoes
  have hcode : t.program.instructions = code := hadds.instructions
  have hlabels : t.program.labels = labels := hadds.labels
  exact ⟨t, by rwa [hcode, hlabels]⟩

end Compiler

end HostScript
