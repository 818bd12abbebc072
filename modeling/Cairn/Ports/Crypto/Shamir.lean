import Cairn.Ports.Crypto.Gf
import Cairn.Ports.Records.Claim
import Cairn.Verified.Interpolation
import Mathlib.Data.List.GetD

/-!
# Threshold sharing

`src/crypto/shamir.rs`: every byte of a secret is the constant term of a
polynomial of its own over GF(2^8), a share is all polynomials at one point
other than zero, and combining shares interpolates at zero. The codec of a share
is left out.

`combine` cannot tell that it was given too few shares; `combine_of_isShareOf`
says what enough shares give.
-/

namespace Cairn.Ports.Crypto

open Cairn.Verified

/-- A generator of randomness: its state, and the bytes it fills in next. -/
class Rng where
  State : Type
  fill : (n : Nat) → State → Vector UInt8 n × State

namespace Shamir

open Gf (mul inv Elem)
open Interpolation

inductive ShamirError where
  | emptySecret
  | thresholdZero
  | thresholdExceedsShares (threshold shares : UInt8)
  | noShares
  | indexZero
  | duplicateIndex (index : UInt8)
  | lengthMismatch (expected found : Nat)
  | emptyShare
  | invariant (what : String)
deriving DecidableEq

/-- The text `{:?}` gives an error. -/
def ShamirError.debug : ShamirError → String
  | .emptySecret => "EmptySecret"
  | .thresholdZero => "ThresholdZero"
  | .thresholdExceedsShares threshold shares =>
    "ThresholdExceedsShares \x7b threshold: " ++ toString threshold ++ ", shares: " ++
      toString shares ++ " \x7d"
  | .noShares => "NoShares"
  | .indexZero => "IndexZero"
  | .duplicateIndex index => "DuplicateIndex \x7b index: " ++ toString index ++ " \x7d"
  | .lengthMismatch expected found =>
    "LengthMismatch \x7b expected: " ++ toString expected ++ ", found: " ++ toString found ++
      " \x7d"
  | .emptyShare => "EmptyShare"
  | .invariant what => "Invariant(\"" ++ what ++ "\")"

/-! ## Splitting -/

section Split

variable [Rng]

/-- The coefficients above the constant term, a row for each byte. -/
def drawRows (degree : Nat) : List UInt8 → Rng.State → List (List UInt8) × Rng.State
  | [], rng => ([], rng)
  | _ :: secret, rng =>
    let (row, rng) := Rng.fill degree rng
    let (rows, rng) := drawRows degree secret rng
    (row.toList :: rows, rng)

/-- Horner from the top coefficient down, finishing on the secret byte. -/
def evalRow (x byte : UInt8) (row : List UInt8) : UInt8 :=
  mul (row.reverse.foldl (fun acc coefficient => mul acc x ^^^ coefficient) 0) x ^^^ byte

def shareAt (secret : List UInt8) (rows : List (List UInt8)) (x : UInt8) : Share :=
  ⟨x, List.zipWith (evalRow x) secret rows⟩

def split (secret : List UInt8) (threshold shares : UInt8) (rng : Rng.State) :
    Except ShamirError (List Share × Rng.State) := do
  ensure (secret ≠ []) .emptySecret
  ensure (threshold ≠ 0) .thresholdZero
  ensure (threshold ≤ shares) (.thresholdExceedsShares threshold shares)
  let (rows, rng) := drawRows (threshold.toNat - 1) secret rng
  pure ((List.range shares.toNat).map fun i => shareAt secret rows (UInt8.ofNat (i + 1)), rng)

end Split

/-! ## Combining -/

/-- The scan of `combine` before it interpolates. -/
def checkShares (length : Nat) : List UInt8 → List Share → Except ShamirError Unit
  | _, [] => .ok ()
  | seen, share :: shares => do
      ensure (share.index ≠ 0) .indexZero
      ensure (share.data.length = length) (.lengthMismatch length share.data.length)
      ensure (share.index ∉ seen) (.duplicateIndex share.index)
      checkShares length (share.index :: seen) shares

/-- The inner loop of `lagrange_at_zero`, at place `j`: the products over the
places other than `i`. -/
def basisTerms (i : Nat) (index : UInt8) : Nat → List Share → UInt8 → UInt8 → UInt8 × UInt8
  | _, [], numerator, denominator => (numerator, denominator)
  | j, share :: shares, numerator, denominator =>
    if i = j then basisTerms i index (j + 1) shares numerator denominator
    else
      basisTerms i index (j + 1) shares (mul numerator share.index)
        (mul denominator (share.index ^^^ index))

/-- The outer loop, from place `i` on. -/
def lagrangeFrom (shares : List Share) : Nat → List Share → Except ShamirError (List UInt8)
  | _, [] => .ok []
  | i, share :: rest => do
      let (numerator, denominator) := basisTerms i share.index 0 shares 1 1
      let inverse ← okOr
        (.invariant "zero Lagrange denominator despite distinct non-zero indices")
        (inv denominator)
      let basis ← lagrangeFrom shares (i + 1) rest
      pure (mul numerator inverse :: basis)

def lagrangeAtZero (shares : List Share) : Except ShamirError (List UInt8) :=
  lagrangeFrom shares 0 shares

/-- One share's bytes, scaled, onto the secret so far; they are equally long. -/
def addShare (secret : List UInt8) (scaled : Share × UInt8) : List UInt8 :=
  List.zipWith (fun out y => out ^^^ mul scaled.2 y) secret scaled.1.data

def combine (shares : List Share) : Except ShamirError (List UInt8) := do
  let first ← okOr .noShares shares.head?
  ensure (first.data.length ≠ 0) .emptyShare
  checkShares first.data.length [] shares
  let basis ← lagrangeAtZero shares
  ensure (basis.length = shares.length) (.invariant "basis length does not match share count")
  pure ((shares.zip basis).foldl addShare (List.replicate first.data.length 0))

/-! ## What the loops compute -/

theorem checkShares_eq_ok {length : Nat} : ∀ {seen : List UInt8} {shares : List Share},
    (∀ share ∈ shares, share.index ≠ 0 ∧ share.data.length = length ∧ share.index ∉ seen) →
      (shares.map Share.index).Nodup → checkShares length seen shares = .ok ()
  | _, [], _, _ => rfl
  | seen, share :: shares, h, hnodup => by
      obtain ⟨hzero, hlength, hseen⟩ := h share List.mem_cons_self
      rw [List.map_cons, List.nodup_cons] at hnodup
      have hrest : checkShares length (share.index :: seen) shares = .ok () := by
        refine checkShares_eq_ok (fun s hs => ?_) hnodup.2
        obtain ⟨hz, hl, hn⟩ := h s (List.mem_cons_of_mem share hs)
        refine ⟨hz, hl, fun hmem => ?_⟩
        rcases List.mem_cons.mp hmem with heq | hmem
        · exact hnodup.1 (heq ▸ List.mem_map_of_mem hs)
        · exact hn hmem
      refine bind_eq_ok.mpr ⟨(), ensure_eq_ok.mpr hzero, ?_⟩
      exact bind_eq_ok.mpr ⟨(), ensure_eq_ok.mpr hlength,
        bind_eq_ok.mpr ⟨(), ensure_eq_ok.mpr hseen, hrest⟩⟩

theorem basisTerms_passed {i : Nat} {index : UInt8} :
    ∀ {j : Nat} {shares : List Share} {n d : UInt8}, i < j →
      Elem.of (basisTerms i index j shares n d).1 =
          Elem.of n * (shares.map fun s => Elem.of s.index).prod ∧
        Elem.of (basisTerms i index j shares n d).2 =
          Elem.of d * (shares.map fun s => Elem.of s.index - Elem.of index).prod
  | _, [], n, d, _ => by simp [basisTerms]
  | j, share :: shares, n, d, hlt => by
      obtain ⟨hn, hd⟩ := @basisTerms_passed i index (j + 1) shares
        (mul n share.index) (mul d (share.index ^^^ index)) (Nat.lt_succ_of_lt hlt)
      rw [basisTerms, if_neg (Nat.ne_of_lt hlt), hn, hd]
      simp only [Elem.of_mul, List.map_cons, List.prod_cons, ← Elem.sub_of, mul_assoc, and_self]

/-- The loop leaves out the place `i`. -/
theorem basisTerms_eq {i : Nat} {index : UInt8} :
    ∀ {j : Nat} {shares : List Share} {n d : UInt8}, j ≤ i →
      Elem.of (basisTerms i index j shares n d).1 =
          Elem.of n * ((shares.eraseIdx (i - j)).map fun s => Elem.of s.index).prod ∧
        Elem.of (basisTerms i index j shares n d).2 = Elem.of d *
          ((shares.eraseIdx (i - j)).map fun s => Elem.of s.index - Elem.of index).prod
  | _, [], n, d, _ => by simp [basisTerms]
  | j, share :: shares, n, d, hle => by
      rcases Nat.eq_or_lt_of_le hle with rfl | hlt
      · rw [basisTerms, if_pos rfl, Nat.sub_self, List.eraseIdx_cons_zero]
        exact basisTerms_passed (Nat.lt_succ_self j)
      · obtain ⟨hn, hd⟩ := @basisTerms_eq i index (j + 1) shares
          (mul n share.index) (mul d (share.index ^^^ index)) (Nat.succ_le_of_lt hlt)
        have hsub : i - j = i - (j + 1) + 1 := by omega
        rw [basisTerms, if_neg (Nat.ne_of_gt hlt), hn, hd, hsub, List.eraseIdx_cons_succ]
        simp only [Elem.of_mul, List.map_cons, List.prod_cons, ← Elem.sub_of, mul_assoc, and_self]

/-- The points a list of shares is at. -/
def points (shares : List Share) : Finset UInt8 := (shares.map Share.index).toFinset

variable {share : Share} {shares : List Share} {secret : List UInt8} {rows : List (List UInt8)}

theorem prod_eraseIdx (hnodup : (shares.map Share.index).Nodup) {i : Nat}
    (hget : shares[i]? = some share) (f : UInt8 → Elem) :
    ((shares.eraseIdx i).map fun s => f s.index).prod =
      ∏ x ∈ (points shares).erase share.index, f x := by
  have herase : (shares.map Share.index).eraseIdx i = (shares.map Share.index).erase share.index := by
    obtain ⟨hlt, hshare⟩ := List.getElem?_eq_some_iff.mp hget
    have hlt' : i < (shares.map Share.index).length := by rwa [List.length_map]
    rw [← hshare, ← List.getElem_map Share.index (h := hlt')]
    exact (hnodup.erase_getElem i hlt').symm
  have hset : (points shares).erase share.index =
      ((shares.map Share.index).erase share.index).toFinset := by
    ext x
    rw [Finset.mem_erase, points, List.mem_toFinset, List.mem_toFinset, hnodup.mem_erase_iff]
  rw [hset, List.prod_toFinset f (hnodup.erase _), ← herase, List.eraseIdx_map, List.map_map]
  rfl

theorem lagrangeFrom_eq {shares : List Share} (hnodup : (shares.map Share.index).Nodup) :
    ∀ {i : Nat} {rest : List Share}, shares.drop i = rest →
      ∃ basis, lagrangeFrom shares i rest = .ok basis ∧
        basis.map Elem.of = rest.map fun s => weight (points shares) Elem.of s.index
  | _, [], _ => ⟨[], rfl, rfl⟩
  | i, share :: rest, hdrop => by
      have hget : shares[i]? = some share := by
        rw [← List.head?_drop, hdrop, List.head?_cons]
      obtain ⟨basis, hbasis, hmap⟩ := lagrangeFrom_eq hnodup
        (show shares.drop (i + 1) = rest by rw [← List.tail_drop, hdrop, List.tail_cons])
      obtain ⟨hnumerator, hdenominator⟩ := @basisTerms_eq i share.index 0 shares 1 1
        (Nat.zero_le i)
      generalize hterms : basisTerms i share.index 0 shares 1 1 = terms at hnumerator hdenominator
      obtain ⟨numerator, denominator⟩ := terms
      rw [Nat.sub_zero, prod_eraseIdx hnodup hget fun x => Elem.of x] at hnumerator
      rw [Nat.sub_zero, prod_eraseIdx hnodup hget fun x => Elem.of x - Elem.of share.index]
        at hdenominator
      have hone : Elem.of 1 = 1 := rfl
      rw [hone, one_mul] at hnumerator hdenominator
      have hne : denominator ≠ 0 := by
        intro hzero
        have hprod : (0 : Elem) = _ := (congrArg Elem.of hzero).symm.trans hdenominator
        obtain ⟨x, hx, hxzero⟩ := Finset.prod_eq_zero_iff.mp hprod.symm
        exact (Finset.mem_erase.mp hx).1 (Elem.of_inj (sub_eq_zero.mp hxzero))
      obtain ⟨inverse, hinverse, hof⟩ := Gf.inv_of_ne_zero hne
      refine ⟨mul numerator inverse :: basis, ?_, ?_⟩
      · rw [lagrangeFrom, hterms]
        exact bind_eq_ok.mpr ⟨inverse, by rw [hinverse]; rfl, bind_eq_ok.mpr ⟨basis, hbasis, rfl⟩⟩
      · rw [List.map_cons, List.map_cons, hmap, Elem.of_mul, hof]
        exact congrArg (· :: _) (congrArg₂ (fun a b => a * b⁻¹) hnumerator hdenominator)

theorem getD_addShare {scaled : Share × UInt8} (hlength : scaled.1.data.length = secret.length)
    (p : Nat) :
    Elem.of ((addShare secret scaled).getD p 0) =
      Elem.of (secret.getD p 0) + Elem.of scaled.2 * Elem.of (scaled.1.data.getD p 0) := by
  by_cases hp : p < secret.length
  · have hp' : p < scaled.1.data.length := by omega
    simp [addShare, List.getD_eq_getElem?_getD, List.getElem?_zipWith, List.getElem?_eq_getElem hp,
      List.getElem?_eq_getElem hp']
  · have hp' : ¬p < scaled.1.data.length := by omega
    simp [addShare, List.getD_eq_getElem?_getD, List.getElem?_zipWith,
      List.getElem?_eq_none (Nat.le_of_not_lt hp), List.getElem?_eq_none (Nat.le_of_not_lt hp')]

/-- A place of the sum of all scaled shares. -/
theorem getD_foldl_addShare (p : Nat) : ∀ {shares : List Share} {basis : List UInt8}
    {secret : List UInt8}, (∀ share ∈ shares, share.data.length = secret.length) →
      basis.length = shares.length →
      Elem.of (((shares.zip basis).foldl addShare secret).getD p 0) = Elem.of (secret.getD p 0) +
        (List.zipWith (fun share c => c * Elem.of (share.data.getD p 0)) shares
          (basis.map Elem.of)).sum
  | [], [], secret, _, _ => by simp
  | share :: shares, c :: basis, secret, hdata, hbasis => by
      have hshare := hdata share List.mem_cons_self
      have hlength : (addShare secret (share, c)).length = secret.length := by
        rw [addShare, List.length_zipWith, hshare, Nat.min_self]
      rw [List.zip_cons_cons, List.foldl_cons, getD_foldl_addShare p
        (fun s hs => (hdata s (List.mem_cons_of_mem share hs)).trans hlength.symm)
        (Nat.succ.inj hbasis), getD_addShare hshare, List.map_cons, List.zipWith_cons_cons,
        List.sum_cons, add_assoc]

theorem length_foldl_addShare : ∀ {scaled : List (Share × UInt8)} {secret : List UInt8},
    (∀ pair ∈ scaled, pair.1.data.length = secret.length) →
      (scaled.foldl addShare secret).length = secret.length
  | [], _, _ => rfl
  | pair :: scaled, secret, h => by
      have hlength : (addShare secret pair).length = secret.length := by
        rw [addShare, List.length_zipWith, h pair List.mem_cons_self, Nat.min_self]
      rw [List.foldl_cons, length_foldl_addShare fun q hq => ?_, hlength]
      exact (h q (List.mem_cons_of_mem pair hq)).trans hlength.symm

/-! ## Enough shares -/

/-- The share at its point of the polynomials with these constant terms and
rows. -/
structure IsShareOf (secret : List UInt8) (rows : List (List UInt8)) (share : Share) : Prop where
  index_ne_zero : share.index ≠ 0
  eq : share = shareAt secret rows share.index

theorem of_evalRow (x byte : UInt8) (row : List UInt8) :
    Elem.of (evalRow x byte row) =
      (ofCoeffs ((byte :: row).map Elem.of)).eval (Elem.of x) := by
  have hfold : ∀ row : List UInt8,
      Elem.of (row.foldr (fun c acc => mul acc x ^^^ c) 0) =
        (row.map Elem.of).foldr (fun c acc => acc * Elem.of x + c) 0 := by
    intro row
    induction row with
    | nil => rfl
    | cons c row ih => rw [List.foldr_cons, List.map_cons, List.foldr_cons, ← ih]; rfl
  rw [evalRow, List.foldl_reverse, eval_ofCoeffs, ← hfold, List.foldr_cons]

theorem IsShareOf.length (h : IsShareOf secret rows share) (hrows : rows.length = secret.length) :
    share.data.length = secret.length := by
  rw [h.eq, shareAt, List.length_zipWith, hrows, Nat.min_self]

theorem IsShareOf.getD (h : IsShareOf secret rows share) {p : Nat} {byte : UInt8} {row : List UInt8}
    (hbyte : secret[p]? = some byte) (hrow : rows[p]? = some row) :
    Elem.of (share.data.getD p 0) =
      (ofCoeffs ((byte :: row).map Elem.of)).eval (Elem.of share.index) := by
  have hdata : share.data = List.zipWith (evalRow share.index) secret rows :=
    congrArg Share.data h.eq
  rw [hdata, List.getD_eq_getElem?_getD, List.getElem?_zipWith, hbyte, hrow]
  exact of_evalRow share.index byte row

/-- The weighted sum over enough shares, at one place. -/
theorem sum_shares (hshares : ∀ share ∈ shares, IsShareOf secret rows share)
    (hnodup : (shares.map Share.index).Nodup) {p : Nat} {byte : UInt8} {row : List UInt8}
    (hbyte : secret[p]? = some byte) (hrow : rows[p]? = some row)
    (henough : row.length + 1 ≤ shares.length) :
    (shares.map fun s => weight (points shares) Elem.of s.index * Elem.of (s.data.getD p 0)).sum =
      Elem.of byte := by
  have hvalues : (shares.map fun s =>
      weight (points shares) Elem.of s.index * Elem.of (s.data.getD p 0)) =
      (shares.map Share.index).map fun x => weight (points shares) Elem.of x *
        (ofCoeffs ((byte :: row).map Elem.of)).eval (Elem.of x) := by
    rw [List.map_map]
    refine List.map_congr_left fun share hshare => ?_
    rw [(hshares share hshare).getD hbyte hrow]
    rfl
  have hcard : (points shares).card = shares.length := by
    rw [points, List.toFinset_card_of_nodup hnodup, List.length_map]
  have hdegree : (ofCoeffs ((byte :: row).map Elem.of)).degree < (points shares).card := by
    refine lt_of_lt_of_le (degree_ofCoeffs_lt _) ?_
    rw [hcard, List.length_map, List.length_cons]
    exact_mod_cast henough
  rw [hvalues, ← List.sum_toFinset _ hnodup]
  show ∑ x ∈ points shares, _ = _
  rw [sum_weight_mul_eval (fun _ _ _ _ h => Elem.of_inj h) hdegree, List.map_cons,
    eval_zero_ofCoeffs_cons]

/-- Enough shares give the secret. -/
theorem combine_of_isShareOf {threshold : Nat} (hsecret : secret ≠ [])
    (hrows : rows.length = secret.length) (hrow : ∀ row ∈ rows, row.length + 1 = threshold)
    (hshares : ∀ share ∈ shares, IsShareOf secret rows share)
    (hnodup : (shares.map Share.index).Nodup) (henough : threshold ≤ shares.length)
    (hpos : threshold ≠ 0) : combine shares = .ok secret := by
  obtain ⟨first, rest, hcons⟩ := List.exists_cons_of_length_pos
    (show 0 < shares.length by omega)
  have hdata : ∀ share ∈ shares, share.data.length = secret.length :=
    fun share hshare => (hshares share hshare).length hrows
  have hfirst : first.data.length = secret.length := hdata first (by rw [hcons]; exact List.mem_cons_self)
  obtain ⟨basis, hbasis, hweights⟩ := lagrangeFrom_eq hnodup (show shares.drop 0 = shares from rfl)
  have hlength : basis.length = shares.length := by
    have := congrArg List.length hweights
    simpa using this
  have hout : (shares.zip basis).foldl addShare (List.replicate secret.length 0) = secret := by
    refine List.ext_getElem ?_ fun p hp hp' => ?_
    · rw [length_foldl_addShare fun pair hpair => ?_, List.length_replicate]
      rw [hdata _ (List.of_mem_zip hpair).1, List.length_replicate]
    · have hp'' : p < rows.length := hrows ▸ hp'
      have hzero : (List.replicate secret.length (0 : UInt8)).getD p 0 = 0 := by
        simp [List.getD_eq_getElem?_getD, hp']
      have hsum := @getD_foldl_addShare p shares basis (List.replicate secret.length 0)
        (fun share hshare => (hdata share hshare).trans (List.length_replicate ..).symm) hlength
      rw [hzero, Elem.of_zero, zero_add, hweights, List.zipWith_map_right, List.zipWith_self,
        sum_shares hshares hnodup (List.getElem?_eq_getElem hp') (List.getElem?_eq_getElem hp'')
          ((hrow _ (List.getElem_mem hp'')).trans_le henough)] at hsum
      rw [← Elem.of_inj hsum, List.getD_eq_getElem _ _ hp]
  refine bind_eq_ok.mpr ⟨first, by rw [hcons]; rfl, bind_eq_ok.mpr ⟨(), ?_, ?_⟩⟩
  · rw [ensure_eq_ok, hfirst]
    exact fun h => hsecret (List.length_eq_zero_iff.mp h)
  · refine bind_eq_ok.mpr ⟨(), checkShares_eq_ok (fun share hshare => ?_) hnodup, ?_⟩
    · exact ⟨(hshares share hshare).index_ne_zero, (hdata share hshare).trans hfirst.symm,
        List.not_mem_nil⟩
    · refine bind_eq_ok.mpr ⟨basis, hbasis, bind_eq_ok.mpr ⟨(), ensure_eq_ok.mpr hlength, ?_⟩⟩
      rw [hfirst, hout]
      rfl

section Split

variable [Rng]

theorem drawRows_spec (degree : Nat) : ∀ (secret : List UInt8) (rng : Rng.State),
    (drawRows degree secret rng).1.length = secret.length ∧
      ∀ row ∈ (drawRows degree secret rng).1, row.length = degree
  | [], _ => ⟨rfl, fun _ h => nomatch h⟩
  | byte :: secret, rng => by
      obtain ⟨hlength, hrows⟩ := drawRows_spec degree secret (Rng.fill degree rng).2
      refine ⟨congrArg (· + 1) hlength, fun row hrow => ?_⟩
      rcases List.mem_cons.mp hrow with rfl | hrow
      · exact Vector.length_toList
      · exact hrows row hrow

/-- What `split` hands out. -/
theorem split_eq_ok {secret : List UInt8} {threshold count : UInt8} {rng rng' : Rng.State}
    {shares : List Share} (h : split secret threshold count rng = .ok (shares, rng')) :
    secret ≠ [] ∧ threshold ≠ 0 ∧ shares.length = count.toNat ∧
      (shares.map Share.index).Nodup ∧ ∃ rows, rows.length = secret.length ∧
        (∀ row ∈ rows, row.length + 1 = threshold.toNat) ∧
        ∀ share ∈ shares, IsShareOf secret rows share := by
  obtain ⟨_, hsecret, h⟩ := bind_eq_ok.mp h
  obtain ⟨_, hthreshold, h⟩ := bind_eq_ok.mp h
  obtain ⟨_, hcount, h⟩ := bind_eq_ok.mp h
  rw [ensure_eq_ok] at hsecret hthreshold
  obtain ⟨hlength, hrows⟩ := drawRows_spec (threshold.toNat - 1) secret rng
  generalize drawRows (threshold.toNat - 1) secret rng = drawn at h hlength hrows
  obtain ⟨rows, rng''⟩ := drawn
  obtain ⟨rfl, rfl⟩ := Prod.mk.inj (Except.ok.inj h)
  have hlt := count.toNat_lt
  have hpoint : ∀ i < count.toNat, (UInt8.ofNat (i + 1)).toNat = i + 1 :=
    fun i hi => UInt8.toNat_ofNat_of_lt' (by simp only [UInt8.size]; omega)
  have hpos : threshold.toNat ≠ 0 := fun h => hthreshold (UInt8.toNat_inj.mp h)
  refine ⟨hsecret, hthreshold, by simp, ?_, rows, hlength, fun row hrow => ?_, fun share hshare => ?_⟩
  · rw [List.map_map]
    refine List.Nodup.map_on (fun i hi j hj hij => ?_) List.nodup_range
    have heq := congrArg UInt8.toNat hij
    have hi' := hpoint i (List.mem_range.mp hi)
    have hj' := hpoint j (List.mem_range.mp hj)
    have heq' : (UInt8.ofNat (i + 1)).toNat = (UInt8.ofNat (j + 1)).toNat := heq
    omega
  · rw [hrows row hrow]
    omega
  · obtain ⟨i, hi, rfl⟩ := List.mem_map.mp hshare
    refine ⟨fun hzero => ?_, rfl⟩
    have := hpoint i (List.mem_range.mp hi)
    have hzero' : (UInt8.ofNat (i + 1)).toNat = 0 := congrArg UInt8.toNat hzero
    omega

end Split

end Shamir

end Cairn.Ports.Crypto
