import HostScript.Value.Order
import HostScript.Proofs.Utf8
/-!
# Total orders

Integers, texts and blobs are each compared in an order of their own, and each of these is total: integers by number,
texts by their bytes, blobs of either type by length first and then by their bytes. Across kinds there is no order,
since the left operand decides there what the right one is read as.
-/

set_option autoImplicit false

namespace HostScript.Value

open HostScript.Text

/-! ## Bytes and numbers -/

section Steps

variable {α : Type} [Ord α] [LT α] [LE α] [DecidableLT α] [Std.LawfulOrderOrd α] [Std.LawfulOrderLT α]

/-- One step of a comparison, and what is left to the ties. -/
theorem ite_lt_eq_then (a b : α) (ties : Ordering) :
    (if a < b then .lt else if b < a then .gt else ties) = (Ord.compare a b).then ties := by
  cases h : Ord.compare a b with
  | lt => rw [if_pos (Std.compare_eq_lt.mp h), Ordering.lt_then]
  | eq =>
    have hab : ¬a < b := by rw [← Std.compare_eq_lt, h]; decide
    have hba : ¬b < a := by rw [← Std.compare_eq_gt, h]; decide
    rw [if_neg hab, if_neg hba, Ordering.eq_then]
  | gt =>
    have hab : ¬a < b := by rw [← Std.compare_eq_lt, h]; decide
    rw [if_neg hab, if_pos (Std.compare_eq_gt.mp h), Ordering.gt_then]

end Steps

theorem orderInts_eq_compare : orderInts = Ord.compare := by
  funext m n
  rw [orderInts, ite_lt_eq_then, Ordering.then_eq]

theorem orderBytes_eq_compare : orderBytes = Ord.compare := by
  funext xs ys
  rw [List.compare_eq_compareLex]
  induction xs generalizing ys with
  | nil => cases ys <;> rfl
  | cons x xs ih =>
    cases ys with
    | nil => rfl
    | cons y ys => rw [orderBytes, ite_lt_eq_then, ih, List.compareLex_cons_cons]

theorem orderBlobs_eq_compareLex : orderBlobs = compareLex (compareOn List.length) orderBytes := by
  funext xs ys
  rw [orderBlobs, ite_lt_eq_then]
  rfl

instance : Std.TransCmp orderInts := orderInts_eq_compare ▸ inferInstance

instance : Std.LawfulEqCmp orderInts := orderInts_eq_compare ▸ inferInstance

instance : Std.TransCmp orderBytes := orderBytes_eq_compare ▸ inferInstance

instance : Std.LawfulEqCmp orderBytes := orderBytes_eq_compare ▸ inferInstance

instance : Std.TransCmp orderBlobs := orderBlobs_eq_compareLex ▸ inferInstance

instance : Std.LawfulEqCmp orderBlobs where
  eq_of_compare h := by
    rw [orderBlobs_eq_compareLex, compareLex, Ordering.then_eq_eq] at h
    exact Std.LawfulEqCmp.eq_of_compare h.2

theorem orderInts_eq_eq {m n : Int64} : orderInts m n = .eq ↔ m = n := Std.LawfulEqCmp.compare_eq_iff_eq

theorem orderBytes_eq_eq {xs ys : List UInt8} : orderBytes xs ys = .eq ↔ xs = ys := Std.LawfulEqCmp.compare_eq_iff_eq

theorem orderBlobs_eq_eq {xs ys : List UInt8} : orderBlobs xs ys = .eq ↔ xs = ys := Std.LawfulEqCmp.compare_eq_iff_eq

theorem orderInts_eq_lt {m n : Int64} : orderInts m n = .lt ↔ m < n := by
  rw [orderInts_eq_compare, Std.compare_eq_lt]

theorem orderInts_eq_gt {m n : Int64} : orderInts m n = .gt ↔ n < m := Std.OrientedCmp.gt_iff_lt.trans orderInts_eq_lt

theorem orderBytes_eq_lt {xs ys : List UInt8} : orderBytes xs ys = .lt ↔ xs < ys := by
  induction xs generalizing ys with
  | nil => cases ys <;> simp [orderBytes]
  | cons x xs ih =>
    cases ys with
    | nil => simp [orderBytes]
    | cons y ys =>
      rw [orderBytes, ite_lt_eq_then, Ordering.then_eq_lt, ih, Std.compare_eq_lt, Std.compare_eq_iff_eq,
        List.cons_lt_cons_iff]

theorem orderBlobs_eq_lt {xs ys : List UInt8} :
    orderBlobs xs ys = .lt ↔ xs.length < ys.length ∨ xs.length = ys.length ∧ xs < ys := by
  rw [orderBlobs, ite_lt_eq_then, Ordering.then_eq_lt, orderBytes_eq_lt, Std.compare_eq_lt, Std.compare_eq_iff_eq]

/-! ## Payloads -/

/-- What is compared: an integer, a text, or the bytes of a blob of either type. -/
inductive Payload where
  | integer (n : Int64)
  | text (s : String)
  | blob (bytes : List UInt8)

/-- What a value is compared by, unless it is a float or missing. -/
def payload? : Value → Option Payload
  | .int n => some (.integer n)
  | .str s => some (.text s)
  | .binary bytes | .custom bytes => some (.blob bytes)
  | _ => none

namespace Payload

/-- Whether payloads are of one kind. -/
inductive Alike : Payload → Payload → Prop where
  | integers (m n : Int64) : Alike (.integer m) (.integer n)
  | texts (s t : String) : Alike (.text s) (.text t)
  | blobs (xs ys : List UInt8) : Alike (.blob xs) (.blob ys)

/-- The order within a kind: integers by number, texts by their bytes, blobs by length first and then by their
bytes. -/
def Before : Payload → Payload → Prop
  | .integer m, .integer n => m < n
  | .text s, .text t => utf8 s < utf8 t
  | .blob xs, .blob ys => xs.length < ys.length ∨ xs.length = ys.length ∧ xs < ys
  | _, _ => False

end Payload

section Kinds

variable {a b c : Value}

theorem compare_integers {m n : Int64} (ha : a.payload? = some (.integer m)) (hb : b.payload? = some (.integer n)) :
    a.compare b = orderInts m n := by
  cases a <;> cases ha
  cases b <;> cases hb
  rfl

theorem compare_texts {s t : String} (ha : a.payload? = some (.text s)) (hb : b.payload? = some (.text t)) :
    a.compare b = orderBytes (utf8 s) (utf8 t) := by
  cases a <;> cases ha
  cases b <;> cases hb
  rfl

/-- The types of two blobs make no difference. -/
theorem compare_blobs {xs ys : List UInt8} (ha : a.payload? = some (.blob xs)) (hb : b.payload? = some (.blob ys)) :
    a.compare b = orderBlobs xs ys := by
  cases a <;> cases ha <;> cases b <;> cases hb <;> rfl

/-- **A total order within each kind**: integers, texts, and blobs of either type. Values compare as equal if their
payloads are equal and only then, the other way round they compare the other way round, what is before something is
before all that comes after it, and what is before what is told by `Payload.Before`. -/
theorem compare_total_order {p q r : Payload} (ha : a.payload? = some p) (hb : b.payload? = some q)
    (hc : c.payload? = some r) (hpq : p.Alike q) (hqr : q.Alike r) :
    (a.compare b = .eq ↔ p = q) ∧
      a.compare b = (b.compare a).swap ∧
      (a.compare b = .lt → b.compare c = .lt → a.compare c = .lt) ∧
      (a.compare b = .lt ↔ p.Before q) := by
  cases hpq with
  | integers m n =>
    cases hqr with
    | integers _ k =>
      rw [compare_integers ha hb, compare_integers hb ha, compare_integers hb hc, compare_integers ha hc]
      exact ⟨by rw [orderInts_eq_eq, Payload.integer.injEq], Std.OrientedCmp.eq_swap,
        Std.TransCmp.lt_trans, orderInts_eq_lt⟩
  | texts s t =>
    cases hqr with
    | texts _ u =>
      rw [compare_texts ha hb, compare_texts hb ha, compare_texts hb hc, compare_texts ha hc]
      exact ⟨by rw [orderBytes_eq_eq, utf8_injective.eq_iff, Payload.text.injEq],
        Std.OrientedCmp.eq_swap, Std.TransCmp.lt_trans, orderBytes_eq_lt⟩
  | blobs xs ys =>
    cases hqr with
    | blobs _ zs =>
      rw [compare_blobs ha hb, compare_blobs hb ha, compare_blobs hb hc, compare_blobs ha hc]
      exact ⟨by rw [orderBlobs_eq_eq, Payload.blob.injEq], Std.OrientedCmp.eq_swap,
        Std.TransCmp.lt_trans, orderBlobs_eq_lt⟩

end Kinds

/-- The shorter blob comes first although its byte is the greater one, and of two of one length the bytes decide,
whatever the types. -/
theorem blobs_before :
    (Value.binary [2]).compare (.custom [0, 1]) = .lt ∧ (Value.custom [0, 1]).compare (.binary [0, 2]) = .lt ∧
      (Value.binary [2]).compare (.binary [0, 2]) = .lt := by
  obtain ⟨-, -, htrans, hfirst⟩ := compare_total_order (a := .binary [2]) (b := .custom [0, 1]) (c := .binary [0, 2])
    rfl rfl rfl (.blobs [2] [0, 1]) (.blobs [0, 1] [0, 2])
  have hsecond := compare_total_order (a := .custom [0, 1]) (b := .binary [0, 2]) (c := .binary [0, 2])
    rfl rfl rfl (.blobs [0, 1] [0, 2]) (.blobs [0, 2] [0, 2])
  have h1 := hfirst.mpr (.inl (by decide))
  have h2 := hsecond.2.2.2.mpr (.inr ⟨rfl, by decide⟩)
  exact ⟨h1, h2, htrans h1 h2⟩

end HostScript.Value
