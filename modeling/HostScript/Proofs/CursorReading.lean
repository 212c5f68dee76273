import HostScript.Proofs.CursorEngine
import HostScript.Proofs.EnoughSteps
import HostScript.Proofs.Numerals
/-!
# What is read at a cursor

A routine at work in a text does what a reader does with the text that is left: it comes to an end, with the same
result or the same error, and leaves the cursor before what the reader leaves. Here that is said of the tokens, none
of which reads beyond the text.
-/

set_option autoImplicit false

namespace HostScript

open HostScript.Text HostScript.Token HostScript.Number

variable {σ α β : Type} {text : List Char} {p p' p'' : Nat} {cs : List Char}

/-! ## Places in a text -/

/-- What is left of a text at a place in it. -/
structure LeftAt (text : List Char) (p : Nat) (cs : List Char) : Prop where
  le : p ≤ text.length
  drop : text.drop p = cs

namespace LeftAt

theorem length (h : LeftAt text p cs) : p + cs.length = text.length := by
  have := h.le
  rw [← h.drop, List.length_drop]
  omega

theorem start : LeftAt text 0 text := ⟨Nat.zero_le _, rfl⟩

theorem skip (h : LeftAt text p cs) {n : Nat} (hn : n ≤ cs.length) : LeftAt text (p + n) (cs.drop n) where
  le := by
    have := h.length
    omega
  drop := by rw [← h.drop, List.drop_drop]

theorem tail {c : Char} (h : LeftAt text p (c :: cs)) : LeftAt text (p + 1) cs :=
  h.skip (Nat.succ_le_succ (Nat.zero_le _))

theorem append {w : List Char} (h : LeftAt text p (w ++ cs)) : LeftAt text (p + w.length) cs := by
  have hskip := h.skip (n := w.length) (by simp)
  rwa [List.drop_left] at hskip

/-- Less is left at a later place. -/
theorem lt_of_length_lt {cs' : List Char} (h : LeftAt text p cs) (h' : LeftAt text p' cs')
    (hlt : cs'.length < cs.length) : p < p' := by
  have := h.length
  have := h'.length
  omega

end LeftAt

/-! ## The desk in a session -/

/-- The desk with a cursor in a text, in a session. -/
def Desk.on (text : List Char) (p : Nat) (s : Session σ) : Desk σ := ⟨text, p, s.errors, s.state⟩

namespace LeftAt

variable {s : Session σ}

theorem rest (h : LeftAt text p cs) : (Desk.on text p s).rest = cs := h.drop

theorem peek (h : LeftAt text p cs) : (Desk.on text p s).peek = cs.headD '\x00' := by
  rw [Desk.peek, Desk.on, ← h.drop, List.headD_eq_head?_getD, List.head?_drop]

theorem atEnd (h : LeftAt text p cs) : (Desk.on text p s).atEnd = cs.isEmpty := by
  have := h.length
  rw [Desk.atEnd, Desk.on]
  cases cs with
  | nil => simpa using Nat.le_of_eq this.symm
  | cons c cs =>
    rw [List.length_cons] at this
    simpa using show p < text.length by omega

theorem location (h : LeftAt text p cs) : (Desk.on text p s).location = excerptOfChars cs :=
  congrArg excerptOfChars h.rest

theorem since (h : LeftAt text p cs) (n : Nat) : (Desk.on text (p + n) s).since p = cs.take n := by
  rw [Desk.since, Desk.on, h.drop, Nat.add_sub_cancel_left]

end LeftAt

/-! ## Routines that only read -/

/-- At a place of the text the routine has this outcome, moves the cursor to another place and does nothing else. -/
def Reads (text : List Char) (p : Nat) (m : Nat → Routine σ α) (outcome : Except ScriptError α) (p' : Nat) : Prop :=
  ∀ s, Comes (fun k => (m k).run (Desk.on text p s)) (outcome, Desk.on text p' s)

namespace Reads

variable {outcome : Except ScriptError β}

theorem pure (a : α) : Reads (σ := σ) text p (fun _ => pure a) (.ok a) p := fun _ => .const _

theorem throw (e : ScriptError) : Reads (σ := σ) (α := α) text p (fun _ => throw e) (.error e) p := fun _ => .const _

theorem bind {m : Nat → Routine σ α} {f : Nat → α → Routine σ β} {a : α} (hm : Reads text p m (.ok a) p')
    (hf : Reads text p' (fun k => f k a) outcome p'') : Reads text p (fun k => m k >>= f k) outcome p'' :=
  fun s => Comes.bind (hm s) (hf s)

theorem fail {m : Nat → Routine σ α} {f : Nat → α → Routine σ β} {e : ScriptError}
    (hm : Reads text p m (.error e) p') : Reads text p (fun k => m k >>= f k) (.error e) p' :=
  fun s => Comes.bind (hm s) (.const _)

theorem step {m : Nat → Routine σ β} (hm : Reads text p (fun k => m (k + 1)) outcome p') :
    Reads text p m outcome p' :=
  fun s => .step (hm s)

theorem ifPos {c : Prop} [Decidable c] {m m' : Nat → Routine σ β} (hc : c) (hm : Reads text p m outcome p') :
    Reads text p (fun k => if c then m k else m' k) outcome p' := by
  simpa only [if_pos hc] using hm

theorem ifNeg {c : Prop} [Decidable c] {m m' : Nat → Routine σ β} (hc : ¬c) (hm : Reads text p m' outcome p') :
    Reads text p (fun k => if c then m k else m' k) outcome p' := by
  simpa only [if_neg hc] using hm

theorem look {f : Desk σ → α} {a : α} (h : ∀ s, f (Desk.on text p s) = a) :
    Reads text p (fun _ => Routine.look f) (.ok a) p := by
  intro s
  rw [← h s]
  exact .const _

theorem peek (h : LeftAt text p cs) :
    Reads (σ := σ) text p (fun _ => Routine.look Desk.peek) (.ok (cs.headD '\x00')) p :=
  .look fun _ => h.peek

theorem atEnd (h : LeftAt text p cs) :
    Reads (σ := σ) text p (fun _ => Routine.look Desk.atEnd) (.ok cs.isEmpty) p :=
  .look fun _ => h.atEnd

theorem location (h : LeftAt text p cs) :
    Reads (σ := σ) text p (fun _ => Routine.look Desk.location) (.ok (excerptOfChars cs)) p :=
  .look fun _ => h.location

theorem since (h : LeftAt text p cs) (n : Nat) :
    Reads (σ := σ) text (p + n) (fun _ => Routine.look (Desk.since p)) (.ok (cs.take n)) (p + n) :=
  .look fun _ => h.since n

theorem skip (n : Nat) : Reads (σ := σ) text p (fun _ => Routine.skip n) (.ok ()) (p + n) := fun _ => .const _

theorem eatWhite (h : LeftAt text p cs) :
    ∃ p', Reads (σ := σ) text p Routine.eatWhite (.ok ()) p' ∧ LeftAt text p' (skipWhite cs) := by
  induction cs generalizing p with
  | nil => exact ⟨p, .step ((Reads.peek h).bind (.pure ())), h⟩
  | cons c cs ih =>
    rw [skipWhite, List.dropWhile_cons]
    by_cases hc : isWhite c = true
    · obtain ⟨p', hreads, hleft⟩ := ih h.tail
      exact ⟨p', .step ((Reads.peek h).bind (.ifPos hc ((Reads.skip 1).bind hreads))), by rwa [if_pos hc]⟩
    · exact ⟨p, .step ((Reads.peek h).bind (.ifNeg hc (.pure ()))), by rwa [if_neg hc]⟩

end Reads

/-! ## Names -/

section Names

variable {start n : Nat} {word w : List Char} {outcome : Except ScriptError Unit}

/-- The cursor moves over the characters of a name that is not too long yet. -/
theorem Reads.toNameEnd (hw : ∀ c ∈ w, isNameChar c = true) (hstart : LeftAt text start word)
    (h : LeftAt text (start + n) (w ++ cs)) (hn : n + w.length ≤ maxNameLength)
    (hend : Reads (σ := σ) text (start + (n + w.length)) (Routine.toNameEnd start) outcome p') :
    Reads (σ := σ) text (start + n) (Routine.toNameEnd start) outcome p' := by
  induction w generalizing n with
  | nil => exact hend
  | cons c w ih =>
    obtain ⟨hc, hw⟩ := List.forall_mem_cons.mp hw
    rw [List.length_cons] at hn hend
    have hshort : ¬maxNameLength < (word.take (n + 1)).length := by
      rw [List.length_take]
      omega
    refine .step ((Reads.peek h).bind (.ifPos hc ((Reads.skip 1).bind
      ((Reads.since hstart (n + 1)).bind (.ifNeg hshort ?_)))))
    exact ih hw h.tail (by omega) (by rwa [Nat.add_right_comm, Nat.add_assoc])

/-- What is no part of a name ends it. -/
theorem Reads.nameEnds (h : LeftAt text p cs) (hcs : isNameChar (cs.headD '\x00') = false) :
    Reads (σ := σ) text p (Routine.toNameEnd start) (.ok ()) p := by
  exact .step ((Reads.peek h).bind (.ifNeg (Bool.eq_false_iff.mp hcs) (.pure ())))

theorem Reads.shortName (hw : ∀ c ∈ w, isNameChar c = true) (h : LeftAt text p (w ++ cs))
    (hcs : isNameChar (cs.headD '\x00') = false) (hshort : w.length ≤ maxNameLength) :
    Reads (σ := σ) text p (Routine.toNameEnd p) (.ok ()) (p + w.length) := by
  refine Reads.toNameEnd (n := 0) hw h h (by rwa [Nat.zero_add]) ?_
  rw [Nat.zero_add]
  exact .nameEnds h.append hcs

/-- The character that makes a name too long is read, and no other one behind it. -/
theorem Reads.longName (hw : ∀ c ∈ w, isNameChar c = true) (h : LeftAt text p (w ++ cs))
    (hlong : maxNameLength < w.length) :
    Reads (σ := σ) text p (Routine.toNameEnd p)
      (.error ⟨.maxIdentifierLength, String.ofList (w.take (maxNameLength + 1))⟩) (p + maxNameLength + 1) := by
  obtain ⟨c, w', hdrop⟩ := List.exists_cons_of_length_pos (l := w.drop maxNameLength) (by
    rw [List.length_drop]
    omega)
  have hc : isNameChar c = true := hw c (List.mem_of_mem_drop (hdrop ▸ List.mem_cons_self))
  have htake : (w.take maxNameLength).length = maxNameLength := by
    rw [List.length_take]
    omega
  have hsplit : w ++ cs = w.take maxNameLength ++ (c :: w' ++ cs) := by
    rw [← hdrop, ← List.append_assoc, List.take_append_drop]
  have hlast : LeftAt text (p + maxNameLength) (c :: w' ++ cs) := by
    have happend := (hsplit ▸ h).append
    rwa [htake] at happend
  have htoolong : maxNameLength < (w.take (maxNameLength + 1)).length := by
    rw [List.length_take]
    omega
  refine Reads.toNameEnd (n := 0) (fun c hc => hw c (List.mem_of_mem_take hc)) h (hsplit ▸ h) ?_ ?_
  · exact Nat.le_of_eq (by rw [htake, Nat.zero_add])
  · rw [htake, Nat.zero_add]
    have hword := Reads.since (σ := σ) h (maxNameLength + 1)
    rw [List.take_append_of_le_length hlong] at hword
    exact .step ((Reads.peek hlast).bind (.ifPos hc ((Reads.skip 1).bind
      (hword.bind (.ifPos htoolong (.fail (.throw _)))))))

end Names

/-- The routine reads what the reader does, and leaves the cursor before what the reader leaves. -/
def ReadsAs (text : List Char) (p : Nat) (m : Nat → Routine σ α) (r : Except ScriptError (α × List Char)) : Prop :=
  ∃ p', Reads text p m (r.map Prod.fst) p' ∧ ∀ a rest, r = .ok (a, rest) → LeftAt text p' rest

theorem ReadsAs.ok {m : Nat → Routine σ α} {a : α} {rest : List Char} (hm : Reads text p m (.ok a) p')
    (hrest : LeftAt text p' rest) : ReadsAs text p m (.ok (a, rest)) := by
  refine ⟨p', hm, ?_⟩
  rintro _ _ ⟨⟩
  exact hrest

theorem ReadsAs.error {m : Nat → Routine σ α} {e : ScriptError} (hm : Reads text p m (.error e) p') :
    ReadsAs text p m (.error e) :=
  ⟨p', hm, fun _ _ h => nomatch h⟩

theorem Token.takeWhile_name {w : List Char} (hw : ∀ c ∈ w, isNameChar c = true)
    (hcs : isNameChar (cs.headD '\x00') = false) : (w ++ cs).takeWhile isNameChar = w := by
  rw [List.takeWhile_append_of_pos hw]
  cases cs with
  | nil => simp
  | cons c cs =>
    rw [List.headD_cons] at hcs
    simp [hcs]

/-- A text starts with the characters of a name, which end. -/
theorem Token.exists_name (cs : List Char) :
    ∃ w rest, cs = w ++ rest ∧ (∀ c ∈ w, isNameChar c = true) ∧ isNameChar (rest.headD '\x00') = false := by
  refine ⟨cs.takeWhile isNameChar, cs.dropWhile isNameChar, List.takeWhile_append_dropWhile.symm,
    List.all_eq_true.mp List.all_takeWhile, ?_⟩
  have hend := List.head?_dropWhile_not isNameChar cs
  cases hd : cs.dropWhile isNameChar with
  | nil => rfl
  | cons c rest =>
    rw [hd] at hend
    exact hend

theorem ReadsAs.name (h : LeftAt text p cs) : ReadsAs (σ := σ) text p Routine.name (readName cs) := by
  obtain ⟨w, rest, rfl, hw, hrest⟩ := exists_name cs
  have hstart : Reads (σ := σ) text p (fun _ => Routine.look Desk.pos) (.ok p) p := .look fun _ => rfl
  unfold readName Routine.name
  rw [takeWhile_name hw hrest]
  dsimp only
  split
  · rename_i hlong
    exact .error (hstart.bind (.fail (.longName hw h hlong)))
  · rename_i hshort
    have hname := Reads.shortName (σ := σ) hw h hrest (Nat.not_lt.mp hshort)
    have hword := Reads.since (σ := σ) h w.length
    rw [List.take_left] at hword
    split
    · rename_i hempty
      obtain rfl : w = [] := List.isEmpty_iff.mp hempty
      exact .error (hstart.bind (hname.bind (hword.bind (.ifPos rfl ((Reads.location h).bind (.fail (.throw _)))))))
    · rename_i hempty
      obtain ⟨p', hwhite, hleft⟩ := Reads.eatWhite (σ := σ) h.append
      rw [List.drop_left]
      exact .ok (hstart.bind (hname.bind (hword.bind (.ifNeg hempty (hwhite.bind (.pure _)))))) hleft

theorem Token.readName_length {name : String} {rest : List Char} (h : readName cs = .ok (name, rest)) :
    rest.length < cs.length := by
  obtain ⟨w, rest', rfl, hw, hrest⟩ := exists_name cs
  unfold readName at h
  rw [takeWhile_name hw hrest] at h
  dsimp only at h
  split at h
  · cases h
  · split at h
    · cases h
    · rename_i hempty
      cases h
      have hpos : 0 < w.length := List.length_pos_iff.mpr fun hnil => hempty (List.isEmpty_iff.mpr hnil)
      have hwhite := skipWhite_length rest'
      rw [List.drop_left, List.length_append]
      omega

/-! ## Numbers -/

theorem Number.leadingDigits_length (base : Nat) (cs : List Char) : (leadingDigits base cs).length ≤ cs.length := by
  induction cs with
  | nil => exact Nat.le_refl _
  | cons c cs ih =>
    rw [leadingDigits]
    split
    · exact Nat.succ_le_succ ih
    · exact Nat.zero_le _

theorem Number.signOf_le (cs : List Char) : (signOf cs).2 ≤ cs.length := by
  unfold signOf
  split <;> simp

theorem Number.detectBase_le (cs : List Char) : (detectBase cs).2 ≤ cs.length := by
  unfold detectBase
  split
  · split <;> simp
  · exact Nat.zero_le _
  · exact Nat.zero_le _

/-- An integer takes no more than there is. -/
theorem Number.readInteger_used_le (cs : List Char) : (readInteger cs).used ≤ cs.length := by
  unfold readInteger
  dsimp only
  have hspaces : (cs.takeWhile isSpace).length ≤ cs.length := (List.takeWhile_sublist _).length_le
  generalize (cs.takeWhile isSpace).length = spaces at hspaces ⊢
  have hsign := signOf_le (cs.drop spaces)
  generalize signOf (cs.drop spaces) = sign at hsign ⊢
  obtain ⟨negative, sign⟩ := sign
  have hmark := detectBase_le (cs.drop (spaces + sign))
  generalize detectBase (cs.drop (spaces + sign)) = mark at hmark ⊢
  obtain ⟨base, mark⟩ := mark
  have hdigits := leadingDigits_length base ((cs.drop (spaces + sign)).drop mark)
  simp only [List.length_drop] at hsign hmark hdigits
  split
  · exact Nat.zero_le _
  · dsimp only
    omega

theorem Number.startsWithWord_length {word : String} (h : startsWithWord word cs = true) :
    word.length ≤ cs.length := by
  have heq : (cs.take word.length).map Char.toLower = word.toList := eq_of_beq h
  have hlength := congrArg List.length heq
  rw [List.length_map, List.length_take, String.length_toList] at hlength
  omega

theorem Number.readExponent_used_le (cs : List Char) : (readExponent cs).used ≤ cs.length := by
  unfold readExponent
  split
  · split
    · rename_i e rest _
      have hsign := signOf_le rest
      generalize signOf rest = sign at hsign ⊢
      obtain ⟨negative, sign⟩ := sign
      have hdigits := leadingDigits_length 10 (rest.drop sign)
      rw [List.length_drop] at hdigits
      dsimp only
      split
      · exact Nat.zero_le _
      · dsimp only [List.length_cons]
        omega
    · exact Nat.zero_le _
  · exact Nat.zero_le _

/-- What a fraction takes behind the digits before it: the point and its digits. -/
theorem Number.fraction_le (cs : List Char) :
    (if cs.head? == some '.' then 1 else 0) + (if cs.head? == some '.' then leadingDigits 10 cs.tail else []).length ≤
      cs.length := by
  split
  · cases cs with
    | nil => contradiction
    | cons c cs =>
      have hdigits := leadingDigits_length 10 cs
      rw [List.tail_cons, List.length_cons]
      omega
  · exact Nat.zero_le _

theorem Number.readDecimal_used_le (negative : Bool) (before : Nat) (cs : List Char) :
    (readDecimal negative before cs).used ≤ before + cs.length := by
  unfold readDecimal
  dsimp only
  have hwhole := leadingDigits_length 10 cs
  have hfraction := fraction_le (cs.drop (leadingDigits 10 cs).length)
  generalize leadingDigits 10 cs = whole at hwhole hfraction ⊢
  generalize (if (cs.drop whole.length).head? == some '.' then leadingDigits 10 (cs.drop whole.length).tail else []) =
    fraction at hfraction ⊢
  generalize (if (cs.drop whole.length).head? == some '.' then 1 else 0) = point at hfraction ⊢
  have hexponent := readExponent_used_le ((cs.drop whole.length).drop (point + fraction.length))
  simp only [List.length_drop] at hfraction hexponent
  split
  · exact Nat.zero_le _
  · dsimp only
    omega

/-- A float takes no more than there is. -/
theorem Number.readFloat_used_le (cs : List Char) : (readFloat cs).used ≤ cs.length := by
  unfold readFloat
  dsimp only
  have hspaces : (cs.takeWhile isSpace).length ≤ cs.length := (List.takeWhile_sublist _).length_le
  generalize (cs.takeWhile isSpace).length = spaces at hspaces ⊢
  have hsign := signOf_le (cs.drop spaces)
  generalize signOf (cs.drop spaces) = sign at hsign ⊢
  obtain ⟨negative, sign⟩ := sign
  simp only [List.length_drop] at hsign
  split
  · rename_i word infinite hfind
    have hword : startsWithWord word (cs.drop (spaces + sign)) = true :=
      List.find?_some (p := fun w : String × Bool => startsWithWord w.1 (cs.drop (spaces + sign))) hfind
    have hword := startsWithWord_length hword
    rw [List.length_drop] at hword
    dsimp only
    omega
  · have hdecimal := readDecimal_used_le negative (spaces + sign) (cs.drop (spaces + sign))
    rw [List.length_drop] at hdecimal
    exact Nat.le_trans hdecimal (by omega)

/-- A number is read where there is anything to read, and white space behind it is left. -/
theorem Reads.number (h : LeftAt text p cs) (hcs : cs ≠ []) :
    ∃ p' rest, Reads (σ := σ) text p (fun _ => Routine.number) (.ok (readNumber cs).1) p' ∧ LeftAt text p' rest ∧
      (readNumber cs).2 = skipWhite rest ∧ rest.length < cs.length := by
  have hint := readInteger_used_le cs
  have hfloat := readFloat_used_le cs
  have hlength := List.length_pos_iff.mpr hcs
  have hrest : Reads (σ := σ) text p (fun _ => Routine.look Desk.rest) (.ok cs) p := .look fun _ => h.rest
  unfold Routine.number readNumber
  dsimp only
  split
  · refine ⟨_, _, hrest.bind ?_, h.skip hfloat, rfl, ?_⟩
    · exact .ifPos ‹_› ((Reads.skip _).bind (.pure _))
    · rw [List.length_drop]
      omega
  · refine ⟨_, _, hrest.bind ?_, h.skip (n := max (readInteger cs).used 1) (by omega), rfl, ?_⟩
    · exact .ifNeg ‹_› ((Reads.skip _).bind (.pure _))
    · rw [List.length_drop]
      omega

/-! ## Texts -/

section Texts

variable {outcome : Except ScriptError Unit} {c : Char}

theorem Reads.quoteEnds (h : LeftAt text p ('"' :: cs)) :
    Reads (σ := σ) text p Routine.toQuote (.ok ()) p := by
  exact .step ((Reads.peek h).bind ((Reads.atEnd h).bind (.pure ())))

/-- At the end, or behind it, no quote follows. -/
theorem Reads.noQuote (h : text.length ≤ p) : Reads (σ := σ) text p Routine.toQuote (.ok ()) p := by
  have hpeek : Reads (σ := σ) text p (fun _ => Routine.look Desk.peek) (.ok '\x00') p :=
    .look fun s => by rw [Desk.peek, Desk.on, List.getElem?_eq_none h, Option.getD_none]
  have hend : Reads (σ := σ) text p (fun _ => Routine.look Desk.atEnd) (.ok true) p := .look fun s => by
    simpa [Desk.atEnd]
  exact .step (hpeek.bind (hend.bind (.pure ())))

theorem Reads.escaped (h : LeftAt text p ('\\' :: cs))
    (hrest : Reads (σ := σ) text (p + 2) Routine.toQuote outcome p') :
    Reads (σ := σ) text p Routine.toQuote outcome p' := by
  exact .step ((Reads.peek h).bind ((Reads.atEnd h).bind ((Reads.skip 1).bind ((Reads.skip 1).bind hrest))))

theorem Reads.quoted (h : LeftAt text p (c :: cs)) (hc : c ≠ '"') (hc' : c ≠ '\\')
    (hrest : Reads (σ := σ) text (p + 1) Routine.toQuote outcome p') :
    Reads (σ := σ) text p Routine.toQuote outcome p' := by
  exact .step ((Reads.peek h).bind ((Reads.atEnd h).bind (.ifPos (by simpa using hc)
    (.ifNeg (by simpa using hc') ((Reads.skip 1).bind hrest)))))

theorem Token.untilQuote_eq {w rest : List Char} (hw : untilQuote cs = some (w, rest)) : cs = w ++ '"' :: rest := by
  fun_induction untilQuote cs generalizing w with
  | case1 => cases hw
  | case2 => cases hw; rfl
  | case3 c cs ih =>
    obtain ⟨⟨w', rest'⟩, hw', heq⟩ := Option.map_eq_some_iff.mp hw
    cases heq
    rw [ih hw']
    rfl
  | case4 c cs hquote hescape ih =>
    obtain ⟨⟨w', rest'⟩, hw', heq⟩ := Option.map_eq_some_iff.mp hw
    cases heq
    rw [ih hw']
    rfl

/-- With a closed text behind it a character that starts no escape is no backslash. -/
theorem Token.ne_escape {c : Char} {r : List Char × List Char} (h : ∀ d ds, c = '\\' → cs = d :: ds → False)
    (hr : untilQuote cs = some r) : c ≠ '\\' := by
  rintro rfl
  obtain ⟨d, ds, hds⟩ := List.exists_cons_of_ne_nil (l := cs) fun hnil => by simp [hnil, untilQuote] at hr
  exact h d ds rfl hds

/-- A quote is read up to the one that closes it, whatever follows. -/
theorem Token.untilQuote_closed {raw rest : List Char} (h : untilQuote cs = some (raw, rest)) (tail : List Char) :
    untilQuote (raw ++ '"' :: tail) = some (raw, tail) := by
  fun_induction untilQuote cs generalizing raw with
  | case1 => cases h
  | case2 =>
    cases h
    rfl
  | case3 c cs ih =>
    obtain ⟨⟨raw, rest'⟩, hraw, heq⟩ := Option.map_eq_some_iff.mp h
    cases heq
    rw [List.cons_append, List.cons_append, untilQuote, ih hraw]
    rfl
  | case4 c cs hquote hescape ih =>
    obtain ⟨⟨raw, rest'⟩, hraw, heq⟩ := Option.map_eq_some_iff.mp h
    cases heq
    have hc := ne_escape hescape hraw
    rw [List.cons_append, untilQuote, ih hraw]
    · rfl
    · exact hquote
    · exact fun d ds hd _ => hc hd

/-- The cursor moves to the quote that closes a text. -/
theorem Reads.toQuote (h : LeftAt text p cs) {w rest : List Char} (hw : untilQuote cs = some (w, rest)) :
    Reads (σ := σ) text p Routine.toQuote (.ok ()) (p + w.length) := by
  fun_induction untilQuote cs generalizing p w with
  | case1 => cases hw
  | case2 =>
    cases hw
    exact .quoteEnds h
  | case3 c cs ih =>
    obtain ⟨⟨w', rest'⟩, hw', heq⟩ := Option.map_eq_some_iff.mp hw
    cases heq
    refine .escaped h ?_
    rw [List.length_cons, List.length_cons, Nat.add_assoc w'.length, Nat.add_comm w'.length, ← Nat.add_assoc]
    exact ih (h.skip (n := 2) (by simp)) hw'
  | case4 c cs hquote hescape ih =>
    obtain ⟨⟨w', rest'⟩, hw', heq⟩ := Option.map_eq_some_iff.mp hw
    cases heq
    have hc := ne_escape hescape hw'
    refine .quoted h hquote hc ?_
    rw [List.length_cons, Nat.add_comm w'.length, ← Nat.add_assoc]
    exact ih h.tail hw'

/-- Without a closing quote the cursor moves to the end, or over it. -/
theorem Reads.toQuote_end (h : LeftAt text p cs) (hw : untilQuote cs = none) :
    ∃ p', text.length ≤ p' ∧ Reads (σ := σ) text p Routine.toQuote (.ok ()) p' := by
  fun_induction untilQuote cs generalizing p with
  | case1 =>
    have hend := Nat.le_of_eq h.length.symm
    exact ⟨p, hend, .noQuote hend⟩
  | case2 => cases hw
  | case3 c cs ih =>
    obtain ⟨p', hp', hreads⟩ := ih (h.skip (n := 2) (by simp)) (Option.map_eq_none_iff.mp hw)
    exact ⟨p', hp', .escaped h hreads⟩
  | case4 c cs hquote hescape ih =>
    by_cases hc : c = '\\'
    · -- a backslash at the end takes the cursor over it
      subst hc
      cases cs with
      | nil =>
        have hend : text.length ≤ p + 2 := by
          have := h.length
          rw [List.length_singleton] at this
          omega
        exact ⟨p + 2, hend, .escaped h (.noQuote hend)⟩
      | cons d ds => exact absurd rfl (hescape d ds rfl)
    · obtain ⟨p', hp', hreads⟩ := ih h.tail (Option.map_eq_none_iff.mp hw)
      exact ⟨p', hp', .quoted h hquote hc hreads⟩

/-- One quoted segment, and the white space behind it. -/
theorem ReadsAs.segment (h : LeftAt text p ('"' :: cs)) {w rest acc : List Char}
    (hw : untilQuote cs = some (w, rest)) {r : Except ScriptError (List Char × List Char)}
    (hrest : ∀ p', LeftAt text p' (skipWhite rest) →
      ReadsAs (σ := σ) text p' (fun k => Routine.segments k (acc ++ w)) r) :
    ReadsAs (σ := σ) text p (fun k => Routine.segments k acc) r := by
  have hquote := Reads.toQuote (σ := σ) h.tail hw
  obtain rfl := untilQuote_eq hw
  have hclosed := h.tail.append
  have hstart : Reads (σ := σ) text (p + 1) (fun _ => Routine.look Desk.pos) (.ok (p + 1)) (p + 1) := .look fun _ => rfl
  have hsegment := Reads.since (σ := σ) h.tail w.length
  rw [List.take_left] at hsegment
  obtain ⟨p', hwhite, hleft⟩ := Reads.eatWhite (σ := σ) hclosed.tail
  obtain ⟨p'', hreads, hok⟩ := hrest p' hleft
  refine ⟨p'', ?_, hok⟩
  refine .step ((Reads.peek h).bind ((Reads.skip 1).bind (hstart.bind (hquote.bind ((Reads.atEnd hclosed).bind ?_)))))
  exact hsegment.bind ((Reads.skip 1).bind (hwhite.bind hreads))

/-- A segment that is not closed. -/
theorem ReadsAs.openSegment (h : LeftAt text p ('"' :: cs)) (hw : untilQuote cs = none) (acc : List Char) :
    ReadsAs (σ := σ) text p (fun k => Routine.segments k acc) (.error ⟨.unexpectedEnd, "end-of-string"⟩) := by
  obtain ⟨p', hp', hquote⟩ := Reads.toQuote_end (σ := σ) h.tail hw
  have hstart : Reads (σ := σ) text (p + 1) (fun _ => Routine.look Desk.pos) (.ok (p + 1)) (p + 1) := .look fun _ => rfl
  have hend : Reads (σ := σ) text p' (fun _ => Routine.look Desk.atEnd) (.ok true) p' := .look fun _ => by
    simpa [Desk.atEnd]
  have hreads : Reads (σ := σ) text p (fun k => Routine.segments k acc)
      (.error ⟨.unexpectedEnd, "end-of-string"⟩) p' := by
    exact .step ((Reads.peek h).bind ((Reads.skip 1).bind (hstart.bind (hquote.bind (hend.bind (.fail (.throw _)))))))
  exact .error hreads

/-- What is no quote ends a text. -/
theorem ReadsAs.segmentsEnd (h : LeftAt text p cs) (hcs : cs.headD '\x00' ≠ '"') (acc : List Char) :
    ReadsAs (σ := σ) text p (fun k => Routine.segments k acc) (.ok (acc, cs)) := by
  exact .ok (.step ((Reads.peek h).bind (.ifNeg (by simpa using hcs) (.pure _)))) h

theorem Token.segments_end {n : Nat} (hcs : cs.headD '\x00' ≠ '"') : Token.segments n cs = some ([], cs) := by
  unfold Token.segments
  split
  · simp at hcs
  · rfl

theorem Token.untilQuote_length {w rest : List Char} (hw : untilQuote cs = some (w, rest)) :
    rest.length < cs.length := by
  rw [untilQuote_eq hw, List.length_append, List.length_cons]
  omega

theorem Token.segments_length {n : Nat} {w rest : List Char} (hw : Token.segments n cs = some (w, rest)) :
    rest.length ≤ cs.length := by
  fun_induction Token.segments n cs generalizing w with
  | case1 n cs ih =>
    obtain ⟨⟨w', rest'⟩, hquote, hw⟩ := Option.bind_eq_some_iff.mp hw
    obtain ⟨⟨more, rest''⟩, hmore, heq⟩ := Option.bind_eq_some_iff.mp hw
    cases heq
    have hlength := ih rest' hmore
    have hwhite := skipWhite_length rest'
    have := untilQuote_length hquote
    rw [List.length_cons]
    omega
  | case2 =>
    cases hw
    exact Nat.le_refl _

theorem Token.readText_length {v : Value} {rest : List Char} (h : readText ('"' :: cs) = .ok (v, rest)) :
    rest.length < ('"' :: cs).length := by
  unfold readText at h
  split at h
  · cases h
  · rename_i raw rest' hw
    dsimp only at h
    split at h
    · cases h
    · cases h
      obtain ⟨⟨w', rest'⟩, hquote, hw⟩ := Option.bind_eq_some_iff.mp hw
      obtain ⟨⟨more, rest''⟩, hmore, heq⟩ := Option.bind_eq_some_iff.mp hw
      cases heq
      have hlength := segments_length hmore
      have hwhite := skipWhite_length rest'
      have := untilQuote_length hquote
      rw [List.length_cons]
      omega

/-- What a text without its closing quote is refused with. -/
def closedText (r : Option (List Char × List Char)) : Except ScriptError (List Char × List Char) :=
  match r with
  | none => .error ⟨.unexpectedEnd, "end-of-string"⟩
  | some r => .ok r

/-- The segments of a text, put together behind others. -/
theorem ReadsAs.segments (n : Nat) (h : LeftAt text p cs) (hn : cs.length ≤ n) (acc : List Char) :
    ReadsAs (σ := σ) text p (fun k => Routine.segments k acc)
      (closedText ((Token.segments n cs).map fun r => (acc ++ r.1, r.2))) := by
  induction n generalizing p cs acc with
  | zero =>
    obtain rfl : cs = [] := List.eq_nil_of_length_eq_zero (Nat.le_zero.mp hn)
    rw [segments_end (by decide), Option.map_some, List.append_nil]
    exact .segmentsEnd h (by decide) acc
  | succ n ih =>
    by_cases hcs : cs.headD '\x00' = '"'
    · obtain ⟨cs, rfl⟩ : ∃ rest, cs = '"' :: rest := by
        cases cs with
        | nil => cases hcs
        | cons c cs => exact ⟨cs, congrArg (· :: cs) hcs⟩
      rw [Token.segments]
      cases hw : untilQuote cs with
      | none => exact .openSegment h hw acc
      | some r =>
        obtain ⟨w, rest⟩ := r
        have hlength : (skipWhite rest).length ≤ n := by
          have hrest := untilQuote_length hw
          have hwhite := skipWhite_length rest
          rw [List.length_cons] at hn
          omega
        refine .segment h hw fun p' hleft => ?_
        have hmore := ih hleft hlength (acc ++ w)
        cases hsegments : Token.segments n (skipWhite rest) with
        | none =>
          rw [hsegments] at hmore
          simpa [hsegments] using hmore
        | some r =>
          rw [hsegments] at hmore
          simpa [hsegments] using hmore
    · rw [segments_end hcs, Option.map_some, List.append_nil]
      exact .segmentsEnd h hcs acc

theorem ReadsAs.stringLiteral (h : LeftAt text p cs) :
    ReadsAs (σ := σ) text p Routine.stringLiteral (readText cs) := by
  have hsegments := ReadsAs.segments (σ := σ) cs.length h (Nat.le_refl _) []
  unfold readText Routine.stringLiteral
  cases hraw : Token.segments cs.length cs with
  | none =>
    rw [hraw] at hsegments
    obtain ⟨p', hreads, -⟩ := hsegments
    exact .error (.fail hreads)
  | some r =>
    obtain ⟨raw, rest⟩ := r
    rw [hraw] at hsegments
    obtain ⟨p', hreads, hleft⟩ := hsegments
    dsimp only
    split
    · exact .error (hreads.bind (.ifPos ‹_› (.fail (.throw _))))
    · exact .ok (hreads.bind (.ifNeg ‹_› (.pure _))) (hleft _ _ rfl)

end Texts

end HostScript
