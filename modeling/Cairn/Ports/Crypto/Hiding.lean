import Cairn.Ports.Crypto.Shamir
import Mathlib.Data.Set.Card

/-!
# What too few shares say

`src/crypto/shamir.rs`. A list of shares is behind a secret when some rows of
coefficients give those shares and that secret. With one share fewer than the
threshold there is exactly one choice of rows for every secret; with fewer still
the choices for two secrets are moved onto each other by adding rows that vanish
at every share held.
-/

namespace Cairn.Ports.Crypto.Shamir

open Cairn.Verified
open Gf (mul Elem)
open Interpolation

/-- One row above a given constant term takes given values at as many points. -/
theorem existsUnique_row {indices : List UInt8} (hnodup : indices.Nodup) (hzero : 0 ∉ indices)
    (value : UInt8 → UInt8) (byte : UInt8) : ∃! row : List UInt8,
      row.length = indices.length ∧ ∀ x ∈ indices, evalRow x byte row = value x := by
  let points : Finset Elem := (indices.map Elem.of).toFinset
  have hnodup' : (indices.map Elem.of).Nodup := hnodup.map fun _ _ h => Elem.of_inj h
  have hcard : points.card = indices.length := by
    rw [List.toFinset_card_of_nodup hnodup', List.length_map]
  have hmem : ∀ x : UInt8, Elem.of x ∈ points ↔ x ∈ indices := by
    intro x
    rw [List.mem_toFinset, List.mem_map]
    exact ⟨fun ⟨y, hy, h⟩ => Elem.of_inj h ▸ hy, fun h => ⟨x, h, rfl⟩⟩
  have hzero' : (0 : Elem) ∉ points := fun h => hzero ((hmem 0).mp h)
  have hiff : ∀ row : List UInt8, (row.map Elem.of).length = points.card ∧
      (∀ x ∈ points, (ofCoeffs (Elem.of byte :: row.map Elem.of)).eval x =
        Elem.of (value x.byte)) ↔
      row.length = indices.length ∧ ∀ x ∈ indices, evalRow x byte row = value x := by
    intro row
    rw [List.length_map, hcard]
    refine and_congr_right fun _ => ⟨fun h x hx => ?_, fun h x hx => ?_⟩
    · apply Elem.of_inj
      rw [of_evalRow]
      exact h (Elem.of x) ((hmem x).mpr hx)
    · exact (of_evalRow x.byte byte row).symm.trans (congrArg Elem.of (h x.byte ((hmem x.byte).mp hx)))
  obtain ⟨cs, hcs, hunique⟩ := existsUnique_ofCoeffs hzero' (fun x => Elem.of (value x.byte))
    (Elem.of byte)
  have hback : ∀ cs : List Elem, (cs.map Elem.byte).map Elem.of = cs := by
    intro cs
    rw [List.map_map]
    exact List.map_id cs
  refine ⟨cs.map Elem.byte, (hiff _).mp (by rwa [hback]), fun row hrow => ?_⟩
  rw [← hunique _ ((hiff row).mpr hrow), List.map_map]
  exact (List.map_id row).symm

/-- The byte that the share at a point has at a place. -/
def byteAt (shares : List Share) (p : Nat) (x : UInt8) : UInt8 :=
  ((shares.find? fun share => share.index = x).map fun share => share.data.getD p 0).getD 0

variable {shares : List Share} {rows : List (List UInt8)} {secret secret' : List UInt8}
  {degree : Nat}

theorem byteAt_of_mem (hnodup : (shares.map Share.index).Nodup) {share : Share} (h : share ∈ shares)
    (p : Nat) : byteAt shares p share.index = share.data.getD p 0 := by
  have hfind : shares.find? (fun s => s.index = share.index) = some share := by
    induction shares with
    | nil => cases h
    | cons first rest ih =>
      rw [List.map_cons, List.nodup_cons] at hnodup
      obtain rfl | h := List.mem_cons.mp h
      · rw [List.find?_cons_of_pos (by simp)]
      · have hne : first.index ≠ share.index := fun heq =>
          hnodup.1 (heq ▸ List.mem_map_of_mem h)
        rw [List.find?_cons_of_neg (by simpa using hne)]
        exact ih hnodup.2 h
  rw [byteAt, hfind]
  rfl

/-- The shape of the coefficients `split` draws. -/
structure Shaped (size degree : Nat) (rows : List (List UInt8)) : Prop where
  length : rows.length = size
  row : ∀ row ∈ rows, row.length = degree

theorem isShareOf_iff {share : Share} (hrows : rows.length = secret.length) :
    IsShareOf secret rows share ↔
      (share.index ≠ 0 ∧ share.data.length = secret.length) ∧ ∀ p, p < secret.length →
        share.data.getD p 0 = evalRow share.index (secret.getD p 0) (rows.getD p []) := by
  have hlength : (shareAt secret rows share.index).data.length = secret.length := by
    rw [shareAt, List.length_zipWith, hrows, Nat.min_self]
  have hplace : ∀ p, p < secret.length → (shareAt secret rows share.index).data.getD p 0 =
      evalRow share.index (secret.getD p 0) (rows.getD p []) := by
    intro p hp
    have hp' : p < rows.length := hrows ▸ hp
    rw [List.getD_eq_getElem _ _ (hlength ▸ hp), List.getD_eq_getElem _ _ hp,
      List.getD_eq_getElem _ _ hp']
    exact List.getElem_zipWith
  constructor
  · intro h
    refine ⟨⟨h.index_ne_zero, h.length hrows⟩, fun p hp => ?_⟩
    rw [← hplace p hp, ← h.eq]
  · rintro ⟨⟨hindex, hdata⟩, hall⟩
    refine ⟨hindex, ?_⟩
    have hsame : share.data = (shareAt secret rows share.index).data := by
      refine List.ext_getElem (hdata.trans hlength.symm) fun p hp hp' => ?_
      have h := (hall p (hdata ▸ hp)).trans (hplace p (hdata ▸ hp)).symm
      rwa [List.getD_eq_getElem _ _ hp, List.getD_eq_getElem _ _ hp'] at h
    cases share
    exact congrArg (Share.mk _) hsame

/-- The rows that put a list of shares where it is. -/
def Consistent (secret : List UInt8) (degree : Nat) (shares : List Share) :
    Set (List (List UInt8)) :=
  {rows | Shaped secret.length degree rows ∧ ∀ share ∈ shares, IsShareOf secret rows share}

/-- What shares over a secret of this length look like. -/
structure Plausible (size : Nat) (shares : List Share) : Prop where
  distinct : (shares.map Share.index).Nodup
  share : ∀ share ∈ shares, share.index ≠ 0 ∧ share.data.length = size

/-- One fewer share than the threshold: each secret is behind them in exactly
one way. -/
theorem existsUnique_rows (h : Plausible secret.length shares) :
    ∃! rows, rows ∈ Consistent secret shares.length shares := by
  have hzero : 0 ∉ shares.map Share.index := by
    intro hmem
    obtain ⟨share, hshare, hindex⟩ := List.mem_map.mp hmem
    exact (h.share share hshare).1 hindex
  have hrow := fun p => existsUnique_row h.distinct hzero (byteAt shares p) (secret.getD p 0)
  choose row hat hunique using hrow
  simp only [List.length_map] at hat hunique
  have hget : ∀ p, p < secret.length → ((List.range secret.length).map row).getD p [] = row p := by
    intro p hp
    rw [List.getD_eq_getElem _ _ (by simpa using hp), List.getElem_map, List.getElem_range]
  refine ⟨(List.range secret.length).map row, ⟨⟨by simp, ?_⟩, fun share hshare => ?_⟩, ?_⟩
  · intro r hr
    obtain ⟨p, -, rfl⟩ := List.mem_map.mp hr
    exact (hat p).1
  · refine (isShareOf_iff (by simp)).mpr ⟨h.share share hshare, fun p hp => ?_⟩
    rw [hget p hp, (hat p).2 _ (List.mem_map_of_mem hshare), byteAt_of_mem h.distinct hshare]
  · rintro rows ⟨hshaped, hshares⟩
    refine List.ext_getElem (by simp [hshaped.length]) fun p hp hp' => ?_
    rw [List.getElem_map, List.getElem_range]
    refine hunique p _ ⟨hshaped.row _ (List.getElem_mem hp), fun x hx => ?_⟩
    obtain ⟨share, hshare, rfl⟩ := List.mem_map.mp hx
    have hplace := ((isShareOf_iff hshaped.length).mp (hshares share hshare)).2 p
      (hshaped.length ▸ hp)
    rw [byteAt_of_mem h.distinct hshare, hplace, List.getD_eq_getElem _ _ hp]

/-! ## Fewer shares still -/

theorem evalRow_append_zeros (x byte : UInt8) (row : List UInt8) (n : Nat) :
    evalRow x byte (row ++ List.replicate n 0) = evalRow x byte row := by
  have hzeros : (List.replicate n (0 : UInt8)).foldl (fun acc c => mul acc x ^^^ c) 0 = 0 := by
    induction n with
    | zero => rfl
    | succ n ih =>
      rw [List.replicate_succ, List.foldl_cons, Gf.zero_mul]
      exact ih
  rw [evalRow, evalRow, List.reverse_append, List.reverse_replicate, List.foldl_append, hzeros]

theorem xor_comm₄ (a b c d : UInt8) : (a ^^^ b) ^^^ (c ^^^ d) = (a ^^^ c) ^^^ (b ^^^ d) := by
  rw [UInt8.xor_assoc, ← UInt8.xor_assoc b, UInt8.xor_comm b c, UInt8.xor_assoc c,
    ← UInt8.xor_assoc]

/-- Sharing is linear: rows and constant terms add up. -/
theorem evalRow_xor (x : UInt8) {row row' : List UInt8} (hlength : row.length = row'.length)
    (a b : UInt8) : evalRow x (a ^^^ b) (List.zipWith (· ^^^ ·) row row') =
      evalRow x a row ^^^ evalRow x b row' := by
  have hfold : ∀ row row' : List UInt8, row.length = row'.length →
      (List.zipWith (· ^^^ ·) row row').foldr (fun c acc => mul acc x ^^^ c) 0 =
        row.foldr (fun c acc => mul acc x ^^^ c) 0 ^^^
          row'.foldr (fun c acc => mul acc x ^^^ c) 0 := by
    intro row
    induction row with
    | nil =>
      intro row' h
      obtain rfl := List.length_eq_zero_iff.mp h.symm
      exact UInt8.xor_self.symm
    | cons c row ih =>
      rintro (_ | ⟨c', row'⟩) h
      · cases h
      · rw [List.zipWith_cons_cons, List.foldr_cons, List.foldr_cons, List.foldr_cons,
          ih row' (Nat.succ.inj h), Gf.mul_xor_left, xor_comm₄]
  unfold evalRow
  rw [List.foldl_reverse, List.foldl_reverse, List.foldl_reverse, hfold _ _ hlength,
    Gf.mul_xor_left, xor_comm₄]

/-- Rows added place by place. -/
def addRows (rows rows' : List (List UInt8)) : List (List UInt8) :=
  List.zipWith (List.zipWith (· ^^^ ·)) rows rows'

theorem Shaped.addRows {size degree : Nat} {rows rows' : List (List UInt8)}
    (h : Shaped size degree rows) (h' : Shaped size degree rows') :
    Shaped size degree (addRows rows rows') := by
  constructor
  · rw [Shamir.addRows, List.length_zipWith, h.length, h'.length, Nat.min_self]
  · intro row hrow
    obtain ⟨p, hp, rfl⟩ := List.getElem_of_mem hrow
    simp only [Shamir.addRows, List.getElem_zipWith, List.length_zipWith]
    rw [h.row _ (List.getElem_mem _), h'.row _ (List.getElem_mem _), Nat.min_self]

theorem addRows_cancel {size : Nat} {delta : List (List UInt8)} (h : Shaped size degree rows)
    (h' : Shaped size degree delta) : addRows (addRows rows delta) delta = rows := by
  have hsize : rows.length = delta.length := h.length.trans h'.length.symm
  refine List.ext_getElem (by simp [addRows, hsize]) fun p hp hp' => ?_
  simp only [addRows, List.getElem_zipWith]
  have hrow := h.row _ (List.getElem_mem hp')
  have hdelta := h'.row _ (List.getElem_mem (hsize ▸ hp'))
  refine List.ext_getElem (by simp [hrow, hdelta]) fun i hi hi' => ?_
  simp only [List.getElem_zipWith, UInt8.xor_assoc, UInt8.xor_self, UInt8.xor_zero]

/-- Rows that move one secret to another and leave these shares alone. -/
theorem exists_delta (hlength : secret'.length = secret.length) (h : Plausible secret.length shares)
    (hfew : shares.length ≤ degree) : ∃ delta, Shaped secret.length degree delta ∧
      ∀ share ∈ shares, ∀ p, p < secret.length →
        evalRow share.index (secret.getD p 0 ^^^ secret'.getD p 0) (delta.getD p []) = 0 := by
  let apart := List.zipWith (· ^^^ ·) secret secret'
  have hapart : apart.length = secret.length := by simp [apart, hlength]
  let blank := shares.map fun share => (⟨share.index, List.replicate secret.length 0⟩ : Share)
  have hblank : Plausible apart.length blank := by
    constructor
    · rw [List.map_map]
      exact h.distinct
    · intro share hshare
      obtain ⟨s, hs, rfl⟩ := List.mem_map.mp hshare
      exact ⟨(h.share s hs).1, by rw [hapart, List.length_replicate]⟩
  obtain ⟨rows, ⟨hshaped, hrows⟩, -⟩ := existsUnique_rows hblank
  have hsize : rows.length = secret.length := hshaped.length.trans hapart
  refine ⟨rows.map fun row => row ++ List.replicate (degree - shares.length) 0,
    ⟨by rw [List.length_map, hsize], fun row hrow => ?_⟩, fun share hshare p hp => ?_⟩
  · obtain ⟨r, hr, rfl⟩ := List.mem_map.mp hrow
    rw [List.length_append, hshaped.row r hr, List.length_map, List.length_replicate]
    omega
  · have hplace := ((isShareOf_iff hshaped.length).mp
      (hrows ⟨share.index, List.replicate secret.length 0⟩ (List.mem_map_of_mem hshare))).2 p
      (hapart.symm ▸ hp)
    have hp' : p < rows.length := hsize.symm ▸ hp
    rw [List.getD_eq_getElem rows _ hp', List.getD_eq_getElem apart _ (hapart.symm ▸ hp),
      List.getElem_zipWith] at hplace
    rw [List.getD_eq_getElem _ _ hp, List.getD_eq_getElem _ _ (hlength.symm ▸ hp),
      List.getD_eq_getElem _ _ (by simpa using hp'), List.getElem_map, evalRow_append_zeros,
      ← hplace]
    simp [hp]

theorem consistent_addRows (hlength : secret'.length = secret.length) {delta : List (List UInt8)}
    (hdelta : Shaped secret.length degree delta)
    (hkeeps : ∀ share ∈ shares, ∀ p, p < secret.length →
      evalRow share.index (secret.getD p 0 ^^^ secret'.getD p 0) (delta.getD p []) = 0)
    (h : rows ∈ Consistent secret degree shares) :
    addRows rows delta ∈ Consistent secret' degree shares := by
  obtain ⟨hshaped, hshares⟩ := h
  have hsum := hshaped.addRows hdelta
  refine ⟨by rwa [hlength], fun share hshare => ?_⟩
  obtain ⟨⟨hindex, hdata⟩, hall⟩ := (isShareOf_iff hshaped.length).mp (hshares share hshare)
  refine (isShareOf_iff (by rw [hsum.length, hlength])).mpr
    ⟨⟨hindex, hdata.trans hlength.symm⟩, fun p hp => ?_⟩
  rw [hlength] at hp
  have hrows : p < rows.length := hshaped.length.symm ▸ hp
  have hdelta' : p < delta.length := hdelta.length.symm ▸ hp
  have hadd : (addRows rows delta).getD p [] =
      List.zipWith (· ^^^ ·) (rows.getD p []) (delta.getD p []) := by
    rw [List.getD_eq_getElem _ _ (hsum.length.symm ▸ hp), List.getD_eq_getElem _ _ hrows,
      List.getD_eq_getElem _ _ hdelta']
    exact List.getElem_zipWith
  have hsame : (rows.getD p []).length = (delta.getD p []).length := by
    rw [List.getD_eq_getElem _ _ hrows, List.getD_eq_getElem _ _ hdelta',
      hshaped.row _ (List.getElem_mem _), hdelta.row _ (List.getElem_mem _)]
  have hsecret : secret'.getD p 0 =
      secret.getD p 0 ^^^ (secret.getD p 0 ^^^ secret'.getD p 0) := by
    rw [← UInt8.xor_assoc, UInt8.xor_self, UInt8.zero_xor]
  rw [hall p hp, hadd, hsecret, evalRow_xor _ hsame, hkeeps share hshare p hp, UInt8.xor_zero]

/-- Fewer shares than the threshold are behind every secret equally often. -/
theorem ncard_consistent (hlength : secret'.length = secret.length)
    (h : Plausible secret.length shares) (hfew : shares.length ≤ degree) :
    (Consistent secret degree shares).ncard = (Consistent secret' degree shares).ncard := by
  obtain ⟨delta, hdelta, hkeeps⟩ := exists_delta hlength h hfew
  have hback : ∀ share ∈ shares, ∀ p, p < secret'.length →
      evalRow share.index (secret'.getD p 0 ^^^ secret.getD p 0) (delta.getD p []) = 0 := by
    intro share hshare p hp
    rw [UInt8.xor_comm]
    exact hkeeps share hshare p (hlength ▸ hp)
  refine Set.ncard_congr (fun rows _ => addRows rows delta)
    (fun rows hrows => consistent_addRows hlength hdelta hkeeps hrows) ?_ ?_
  · intro rows rows' hrows hrows' heq
    rw [← addRows_cancel hrows.1 hdelta, heq, addRows_cancel hrows'.1 hdelta]
  · intro rows hrows
    have hrows' := consistent_addRows hlength.symm (hlength.symm ▸ hdelta) hback hrows
    exact ⟨addRows rows delta, hrows', addRows_cancel (hlength ▸ hrows.1) hdelta⟩

section Split

variable [Rng]

theorem split_admits {secret : List UInt8} {threshold count : UInt8} {rng : Rng.State} :
    (∃ out, split secret threshold count rng = .ok out) ↔
      secret ≠ [] ∧ threshold ≠ 0 ∧ threshold ≤ count := by
  constructor
  · rintro ⟨out, h⟩
    obtain ⟨_, hsecret, h⟩ := bind_eq_ok.mp h
    obtain ⟨_, hthreshold, h⟩ := bind_eq_ok.mp h
    obtain ⟨_, hcount, -⟩ := bind_eq_ok.mp h
    exact ⟨ensure_eq_ok.mp hsecret, ensure_eq_ok.mp hthreshold, ensure_eq_ok.mp hcount⟩
  · rintro ⟨hsecret, hthreshold, hcount⟩
    exact ⟨_, bind_eq_ok.mpr ⟨(), ensure_eq_ok.mpr hsecret,
      bind_eq_ok.mpr ⟨(), ensure_eq_ok.mpr hthreshold,
        bind_eq_ok.mpr ⟨(), ensure_eq_ok.mpr hcount, rfl⟩⟩⟩⟩

/-- Whatever coefficients are drawn, the shares that `split` hands out give the
secret once there are enough of them, in any order. One share fewer than the
threshold fits every secret in exactly one way, and any fewer fit every secret
equally often. -/
theorem split_reconstructs_and_hides (secret : List UInt8) (threshold count : UInt8)
    (rng : Rng.State) :
    ((∃ out, split secret threshold count rng = .ok out) ↔
      secret ≠ [] ∧ threshold ≠ 0 ∧ threshold ≤ count) ∧
    (∀ shares rng', split secret threshold count rng = .ok (shares, rng') →
      ∀ held : List Share, held ⊆ shares → (held.map Share.index).Nodup →
        threshold.toNat ≤ held.length → combine held = .ok secret) ∧
    ∀ shares : List Share, Plausible secret.length shares →
      (shares.length + 1 = threshold.toNat →
        ∃! rows, rows ∈ Consistent secret (threshold.toNat - 1) shares) ∧
      (shares.length < threshold.toNat →
        ∀ secret' : List UInt8, secret'.length = secret.length →
          (Consistent secret (threshold.toNat - 1) shares).ncard =
            (Consistent secret' (threshold.toNat - 1) shares).ncard) := by
  refine ⟨split_admits, fun shares rng' h held hheld hdistinct henough => ?_,
    fun shares hshares => ⟨fun hone => ?_, fun hfew secret' hlength => ?_⟩⟩
  · obtain ⟨hsecret, hthreshold, -, -, rows, hrows, hrow, hall⟩ := split_eq_ok h
    have hpos : threshold.toNat ≠ 0 := fun h => hthreshold (UInt8.toNat_inj.mp h)
    exact combine_of_isShareOf hsecret hrows hrow (fun share hshare => hall share (hheld hshare))
      hdistinct henough hpos
  · have hdegree : threshold.toNat - 1 = shares.length := by omega
    rw [hdegree]
    exact existsUnique_rows hshares
  · exact ncard_consistent hlength hshares (by omega)

end Split

end Cairn.Ports.Crypto.Shamir
