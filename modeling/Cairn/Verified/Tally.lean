import Cairn.Verified.BTreeMap

/-!
# Tallies

A tally is an ordered map from names to amounts, built by crediting rows one
at a time. Two numbers say all there is to know about it: what a name holds
and what all names hold together. Both are sums over the rows, so a tally
never has to be unfolded again.
-/

namespace Cairn.Verified

universe u

namespace BTreeMap

variable {κ : Type u} [LinearOrder κ]

/-- What a name holds. -/
def amount (t : BTreeMap κ Nat) (k : κ) : Nat := (t.get? k).getD 0

/-- What all names hold together. -/
def total (t : BTreeMap κ Nat) : Nat := t.values.sum

/-- `*entry(k).or_insert(0) += n`. -/
def credit (t : BTreeMap κ Nat) (k : κ) (n : Nat) : BTreeMap κ Nat := t.insert k (t.amount k + n)

/-- `*entry(k).or_insert(0) -= n`, with saturation. -/
def debit (t : BTreeMap κ Nat) (k : κ) (n : Nat) : BTreeMap κ Nat := t.insert k (t.amount k - n)

/-- Credit every row. -/
def creditAll (t : BTreeMap κ Nat) (rows : List (κ × Nat)) : BTreeMap κ Nat :=
  rows.foldl (fun t row => t.credit row.1 row.2) t

/-- Debit every row. -/
def debitAll (t : BTreeMap κ Nat) (rows : List (κ × Nat)) : BTreeMap κ Nat :=
  rows.foldl (fun t row => t.debit row.1 row.2) t

def tally (rows : List (κ × Nat)) : BTreeMap κ Nat := empty.creditAll rows

/-- What the rows under a name add up to. -/
def rowsAt (rows : List (κ × Nat)) (k : κ) : Nat :=
  ((rows.filter fun row => row.1 = k).map Prod.snd).sum

/-- What all rows add up to. -/
def rowsTotal (rows : List (κ × Nat)) : Nat := (rows.map Prod.snd).sum

theorem creditAll_cons (t : BTreeMap κ Nat) (row : κ × Nat) (rows : List (κ × Nat)) :
    t.creditAll (row :: rows) = (t.credit row.1 row.2).creditAll rows := rfl

theorem debitAll_cons (t : BTreeMap κ Nat) (row : κ × Nat) (rows : List (κ × Nat)) :
    t.debitAll (row :: rows) = (t.debit row.1 row.2).debitAll rows := rfl

@[simp] theorem amount_empty (k : κ) : (empty : BTreeMap κ Nat).amount k = 0 := rfl

@[simp] theorem total_empty : (empty : BTreeMap κ Nat).total = 0 := rfl

@[simp] theorem rowsAt_nil (k : κ) : rowsAt ([] : List (κ × Nat)) k = 0 := rfl

omit [LinearOrder κ] in
@[simp] theorem rowsTotal_nil : rowsTotal ([] : List (κ × Nat)) = 0 := rfl

theorem rowsAt_cons (row : κ × Nat) (rows : List (κ × Nat)) (k : κ) :
    rowsAt (row :: rows) k = (if row.1 = k then row.2 else 0) + rowsAt rows k := by
  unfold rowsAt
  by_cases h : row.1 = k
  · simp [h]
  · simp [h]

omit [LinearOrder κ] in
theorem rowsTotal_cons (row : κ × Nat) (rows : List (κ × Nat)) :
    rowsTotal (row :: rows) = row.2 + rowsTotal rows := by
  simp [rowsTotal]

@[simp] theorem rowsAt_append (rows rows' : List (κ × Nat)) (k : κ) :
    rowsAt (rows ++ rows') k = rowsAt rows k + rowsAt rows' k := by
  simp [rowsAt]

omit [LinearOrder κ] in
@[simp] theorem rowsTotal_append (rows rows' : List (κ × Nat)) :
    rowsTotal (rows ++ rows') = rowsTotal rows + rowsTotal rows' := by
  simp [rowsTotal]

variable {rows rows' : List (κ × Nat)}

/-- Leaving rows out only takes from a name. -/
theorem rowsAt_le_of_sublist (h : rows.Sublist rows') (k : κ) :
    rowsAt rows k ≤ rowsAt rows' k := by
  induction h with
  | slnil => exact le_rfl
  | cons row _ ih =>
    rw [rowsAt_cons]
    omega
  | cons_cons row _ ih =>
    rw [rowsAt_cons, rowsAt_cons]
    omega

theorem amount_insert (t : BTreeMap κ Nat) (k k' : κ) (n : Nat) :
    (t.insert k n).amount k' = if k' = k then n else t.amount k' := by
  unfold amount
  rw [get?_insert]
  split_ifs <;> rfl

/-- Replacing a value moves the sum by the difference. -/
theorem sum_insertEntry (k : κ) (n : Nat) {l : List (κ × Nat)}
    (hs : l.Pairwise fun a b => a.1 < b.1) :
    ((insertEntry k n l).map Prod.snd).sum + (lookupEntry k l).getD 0 =
      (l.map Prod.snd).sum + n := by
  induction l with
  | nil => simp [insertEntry, lookupEntry]
  | cons hd tl ih =>
    obtain ⟨c, x⟩ := hd
    obtain ⟨hhd, htl⟩ := List.pairwise_cons.mp hs
    rw [insertEntry, lookupEntry]
    by_cases hlt : k < c
    · have hne : k ≠ c := ne_of_lt hlt
      have habsent : lookupEntry k tl = none := by
        cases hl : lookupEntry k tl with
        | none => rfl
        | some y =>
          have hmem := hhd _ (lookupEntry_eq_some hl)
          exact absurd (lt_trans hlt hmem) (lt_irrefl k)
      rw [if_pos hlt, if_neg hne, habsent]
      simp only [List.map_cons, List.sum_cons, Option.getD_none]
      omega
    · rw [if_neg hlt]
      by_cases heq : k = c
      · rw [if_pos heq, if_pos heq]
        simp only [List.map_cons, List.sum_cons, Option.getD_some]
        omega
      · rw [if_neg heq, if_neg heq]
        simp only [List.map_cons, List.sum_cons]
        have hrest := ih htl
        omega

theorem total_insert (t : BTreeMap κ Nat) (k : κ) (n : Nat) :
    (t.insert k n).total + t.amount k = t.total + n :=
  sum_insertEntry k n t.sorted

theorem amount_credit (t : BTreeMap κ Nat) (k k' : κ) (n : Nat) :
    (t.credit k n).amount k' = t.amount k' + if k = k' then n else 0 := by
  rw [credit, amount_insert]
  by_cases h : k' = k
  · simp [h]
  · simp [h, Ne.symm h]

theorem total_credit (t : BTreeMap κ Nat) (k : κ) (n : Nat) :
    (t.credit k n).total = t.total + n := by
  have hinsert := t.total_insert k (t.amount k + n)
  rw [credit]
  omega

@[simp] theorem amount_creditAll (t : BTreeMap κ Nat) (rows : List (κ × Nat)) (k : κ) :
    (t.creditAll rows).amount k = t.amount k + rowsAt rows k := by
  induction rows generalizing t with
  | nil => simp [creditAll]
  | cons row rows ih =>
    rw [creditAll_cons, ih, amount_credit, rowsAt_cons]
    omega

@[simp] theorem total_creditAll (t : BTreeMap κ Nat) (rows : List (κ × Nat)) :
    (t.creditAll rows).total = t.total + rowsTotal rows := by
  induction rows generalizing t with
  | nil => simp [creditAll]
  | cons row rows ih =>
    rw [creditAll_cons, ih, total_credit, rowsTotal_cons]
    omega

theorem get?_credit (t : BTreeMap κ Nat) (k k' : κ) (n : Nat) :
    (t.credit k n).get? k' = if k' = k then some (t.amount k + n) else t.get? k' :=
  get?_insert t k k' _

/-- The order two rows are credited in does not matter. -/
theorem credit_comm (t : BTreeMap κ Nat) (k k' : κ) (n n' : Nat) :
    (t.credit k n).credit k' n' = (t.credit k' n').credit k n := by
  refine ext_get? fun j => ?_
  simp only [get?_credit, amount_credit]
  rcases eq_or_ne k k' with rfl | hne
  · rw [if_pos rfl, if_pos rfl, Nat.add_right_comm]
    split_ifs <;> rfl
  · rw [if_neg hne, if_neg hne.symm]
    split_ifs with hk' hk
    · exact absurd (hk.symm.trans hk') hne
    · rfl
    · rfl
    · rfl

theorem creditAll_perm (t : BTreeMap κ Nat) (h : rows.Perm rows') :
    t.creditAll rows = t.creditAll rows' :=
  h.foldl_eq' (fun _ _ _ _ t => credit_comm t _ _ _ _) t

theorem rowsAt_perm (h : rows.Perm rows') (k : κ) :
    rowsAt rows k = rowsAt rows' k :=
  ((h.filter _).map _).sum_eq

@[simp] theorem amount_tally (rows : List (κ × Nat)) (k : κ) :
    (tally rows).amount k = rowsAt rows k := by
  simp [tally]

@[simp] theorem total_tally (rows : List (κ × Nat)) : (tally rows).total = rowsTotal rows := by
  simp [tally]

/-! ## A tally read as rows -/

theorem rowsAt_of_not_mem {rows : List (κ × Nat)} {k : κ} (h : ∀ row ∈ rows, row.1 ≠ k) :
    rowsAt rows k = 0 := by
  unfold rowsAt
  rw [List.filter_eq_nil_iff.mpr (by simpa using h)]
  rfl

theorem rowsAt_sorted {rows : List (κ × Nat)} (hs : rows.Pairwise fun a b => a.1 < b.1) (k : κ) :
    rowsAt rows k = (lookupEntry k rows).getD 0 := by
  induction rows with
  | nil => rfl
  | cons row rows ih =>
    obtain ⟨c, x⟩ := row
    obtain ⟨hhd, htl⟩ := List.pairwise_cons.mp hs
    rw [rowsAt_cons, lookupEntry]
    by_cases h : k = c
    · subst h
      rw [rowsAt_of_not_mem fun row hrow he => absurd (hhd row hrow) (by simp [he])]
      simp
    · rw [if_neg h, if_neg (Ne.symm h), ih htl, Nat.zero_add]

/-- The entries of a tally, read as rows, give the tally back. -/
@[simp] theorem rowsAt_entries (t : BTreeMap κ Nat) (k : κ) : rowsAt t.entries k = t.amount k :=
  rowsAt_sorted t.sorted k

@[simp] theorem rowsTotal_entries (t : BTreeMap κ Nat) : rowsTotal t.entries = t.total := rfl

/-! ## Debits -/

theorem amount_debit (t : BTreeMap κ Nat) (k k' : κ) (n : Nat) :
    (t.debit k n).amount k' = t.amount k' - if k = k' then n else 0 := by
  rw [debit, amount_insert]
  by_cases h : k' = k
  · simp [h]
  · simp [h, Ne.symm h]

theorem amount_debitAll (t : BTreeMap κ Nat) (rows : List (κ × Nat)) (k : κ) :
    (t.debitAll rows).amount k = t.amount k - rowsAt rows k := by
  induction rows generalizing t with
  | nil => simp [debitAll]
  | cons row rows ih =>
    rw [debitAll_cons, ih, amount_debit, rowsAt_cons]
    omega

end BTreeMap

end Cairn.Verified
