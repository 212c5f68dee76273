import HostScript.Proofs.CompiledCode
/-!
# Linked programs

Linking settles what compiling has left open: a call or a `goto` gets the position of its label, and a `break` or
`continue` that no loop has claimed is refused. So no instruction of a linked program is pending, and every
target is a position of an instruction, or the one right behind the last instruction.
-/

set_option autoImplicit false

namespace HostScript

namespace Program

variable {p q : Program} {i j : Instruction}

/-- A position of an instruction, or the one right behind the last instruction. -/
def Within (p : Program) (ip : Int) : Prop := 0 ≤ ip ∧ ip ≤ p.size

instance (p : Program) (ip : Int) : Decidable (p.Within ip) := inferInstanceAs (Decidable (_ ∧ _))

/-- Nothing is pending, and nothing leads out of the program. -/
structure Closed (p : Program) : Prop where
  settled : ∀ i ∈ p.instructions, i.opcode.isPending = false
  targets : ∀ i ∈ p.instructions, i.Jumps ∨ i.opcode = .call → p.Within i.target
  labels : ∀ l ∈ p.labels, p.Within l.ip

/-! ## Settled instructions -/

/-- What becomes of a call or a `goto` to a label. -/
def goTo (i : Instruction) (ip : Int) : Instruction :=
  { i with target := ip, opcode := if i.opcode = .goto then .jump else i.opcode }

/-- An instruction that goes to a label is settled by its position, and any other one is left as it is. -/
theorem linkOne_cases (h : p.linkOne i = .ok j) :
    ((i.opcode = .call ∨ i.opcode = .goto) ∧ ∃ ip, p.labelIp? i.text = some ip ∧ j = goTo i ip) ∨
      i.opcode.isPending = false ∧ i.opcode ≠ .call ∧ j = i := by
  unfold linkOne at h
  split at h
  · rename_i hcall
    split at h
    · cases h
    · rename_i ip hip
      exact .inl ⟨.inl hcall, ip, hip, (Except.ok.inj h).symm⟩
  · rename_i hgoto
    split at h
    · cases h
    · rename_i ip hip
      exact .inl ⟨.inr hgoto, ip, hip, (Except.ok.inj h).symm⟩
  · cases h
  · cases h
  · rename_i hcall hgoto hleave hagain
    refine .inr ⟨?_, hcall, (Except.ok.inj h).symm⟩
    cases hop : i.opcode <;> simp_all [Opcode.isPending]

theorem linkAll_done {l l' : List Instruction} (h : p.linkAll l = (l', none)) :
    List.Forall₂ (fun i j => p.linkOne i = .ok j) l l' := by
  induction l generalizing l' with
  | nil =>
    cases h
    exact .nil
  | cons i l ih =>
    rw [linkAll] at h
    split at h
    · cases h
    · rename_i j hj
      obtain ⟨rfl, he⟩ := Prod.mk.inj h
      exact .cons hj (ih (Prod.ext rfl he))

theorem link_done (h : p.link = (q, none)) :
    q.labels = p.labels ∧ List.Forall₂ (fun i j => p.linkOne i = .ok j) p.instructions q.instructions := by
  obtain ⟨rfl, he⟩ := Prod.mk.inj h
  exact ⟨rfl, linkAll_done (Prod.ext rfl he)⟩

/-- A position of a name is that of a label of this name. -/
theorem mem_of_labelIp {name : String} {ip : Int} (h : p.labelIp? name = some ip) :
    ∃ l ∈ p.labels, l.name = name ∧ l.ip = ip := by
  obtain ⟨l, hl, rfl⟩ := Option.map_eq_some_iff.mp h
  exact ⟨l, List.mem_of_find?_eq_some hl, by simpa using List.find?_some hl, rfl⟩

end Program

/-! ## Linking a compiled program -/

theorem Stands.within {c : Cursor} {p : Program} {ip : Int} (h : Stands c 0 p.instructions ip) : p.Within ip := by
  obtain ⟨before, after, hcode, rfl, -, -⟩ := h
  have hsize : p.size = before.length + after.length := by rw [Program.size, hcode, List.length_append]
  exact ⟨Int.natCast_nonneg _, by omega⟩

namespace Stretch

variable {start stop : Cursor} {p q : Program}

theorem labels_within (h : Stretch start stop 0 p.instructions p.labels) : ∀ l ∈ p.labels, p.Within l.ip := by
  intro l hl
  obtain ⟨c, -, -, -, hstands⟩ := h.labels l hl
  exact hstands.within

/-- Linking sets targets to labels within the program, and moves nothing. -/
theorem link (h : Stretch start stop 0 p.instructions p.labels) (hlink : p.link = (q, none)) :
    Stretch start stop 0 q.instructions q.labels := by
  obtain ⟨hlabels, hcode⟩ := Program.link_done hlink
  rw [hlabels]
  refine h.patch (hcode.imp fun i j hij => ?_)
  rcases Program.linkOne_cases hij with ⟨-, ip, hip, rfl⟩ | ⟨-, -, rfl⟩
  · obtain ⟨l, hl, -, rfl⟩ := Program.mem_of_labelIp hip
    have hwithin := h.labels_within l hl
    rw [Nat.zero_add]
    exact ⟨rfl, .inr hwithin⟩
  · exact ⟨rfl, .inl rfl⟩

/-- A linked program is closed. -/
theorem closed (h : Stretch start stop 0 p.instructions p.labels) (hlink : p.link = (q, none)) : q.Closed := by
  have hq := h.link hlink
  obtain ⟨hlabels, hcode⟩ := Program.link_done hlink
  have hsize : q.size = p.size := hcode.length_eq.symm
  have hlinked : ∀ j ∈ q.instructions, ∃ i, p.linkOne i = .ok j := by
    intro j hj
    obtain ⟨n, hn, rfl⟩ := List.getElem_of_mem hj
    exact ⟨_, (List.forall₂_iff_get.mp hcode).2 n (hcode.length_eq ▸ hn) hn⟩
  refine ⟨fun j hj => ?_, fun j hj hjumps => ?_, hq.labels_within⟩
  · obtain ⟨i, hij⟩ := hlinked j hj
    rcases Program.linkOne_cases hij with ⟨hop | hop, ip, -, rfl⟩ | ⟨hpending, -, rfl⟩
    · simp [Program.goTo, hop, Opcode.isPending]
    · simp [Program.goTo, hop, Opcode.isPending]
    · exact hpending
  · rcases hjumps with hjumps | hcall
    · have htarget := hq.jumps j hj hjumps
      exact ⟨htarget.1, by simpa [Program.size] using htarget.2⟩
    · obtain ⟨i, hij⟩ := hlinked j hj
      rcases Program.linkOne_cases hij with ⟨-, ip, hip, rfl⟩ | ⟨-, hother, rfl⟩
      · obtain ⟨l, hl, -, rfl⟩ := Program.mem_of_labelIp hip
        have hwithin := h.labels_within l hl
        exact ⟨hwithin.1, hsize ▸ hwithin.2⟩
      · exact absurd hcall hother

end Stretch

/-! ## Labels and their statements -/

/-- Each label stands for the only statement in the source that sets it, and what goes to a label in the compiled
program goes to where it stands in the linked one. -/
structure Program.Settles (p : Program) (source : String) (q : Program) : Prop where
  labels : q.labels = p.labels
  distinct : (q.labels.map Label.name).Nodup
  stands : ∀ l ∈ q.labels, ∃ c, (Cursor.ofSource source).Upto c ∧ c.SetsLabel l.name ∧ Stands c 0 q.instructions l.ip
  targets : ∀ (k : Nat) (i : Instruction), p.instructions[k]? = some i → i.opcode = .call ∨ i.opcode = .goto →
    ∃ l ∈ q.labels, l.name = i.text ∧ q.instructions[k]? = some (goTo i l.ip)

variable {ξ δ : Type} {decls : Declarations ξ δ} {source : String} {declared declared' : δ} {p q : Program}

theorem compile_stretch (h : Compiler.compile decls source declared = (.compiled p, declared')) :
    ∃ stop, Stretch (.ofSource source) stop 0 p.instructions p.labels ∧ (p.labels.map Label.name).Nodup := by
  obtain ⟨t, hadds⟩ := Compiler.compile_adds h
  refine ⟨t.cursor, hadds.stretch, ?_⟩
  have hlabels : t.program.labels = p.labels := hadds.labels
  rw [← hlabels]
  exact hadds.distinct List.nodup_nil

theorem linked_settles (hcompile : Compiler.compile decls source declared = (.compiled p, declared'))
    (hlink : p.link = (q, none)) : p.Settles source q := by
  obtain ⟨stop, hstretch, hdistinct⟩ := compile_stretch hcompile
  obtain ⟨hlabels, hcode⟩ := Program.link_done hlink
  refine ⟨hlabels, hlabels ▸ hdistinct, fun l hl => ?_, fun k i hk hop => ?_⟩
  · obtain ⟨c, hstart, -, hset, hstands⟩ := (hstretch.link hlink).labels l hl
    exact ⟨c, hstart, hset, hstands⟩
  · obtain ⟨hk', rfl⟩ := List.getElem?_eq_some_iff.mp hk
    have hk'' : k < q.instructions.length := hcode.length_eq ▸ hk'
    rcases Program.linkOne_cases ((List.forall₂_iff_get.mp hcode).2 k hk' hk'') with ⟨-, ip, hip, hj⟩ | ⟨hno, hcall, -⟩
    · obtain ⟨l, hl, hname, rfl⟩ := Program.mem_of_labelIp hip
      exact ⟨l, hlabels ▸ hl, hname, (List.getElem?_eq_getElem hk'').trans (congrArg some hj)⟩
    · rcases hop with hop | hop
      · exact absurd hop hcall
      · simp [hop, Opcode.isPending] at hno

theorem linked_closed (hcompile : Compiler.compile decls source declared = (.compiled p, declared'))
    (hlink : p.link = (q, none)) : q.Closed := by
  obtain ⟨stop, hstretch, -⟩ := compile_stretch hcompile
  exact hstretch.closed hlink

end HostScript
