import Cairn.Ports.Canonical.Merkle

/-!
# A path opens the leaf of its index

A verified path of the right width starts at the leaf its index names, when no
two of the texts that are hashed collide. A state opened under a committed root
is the state that was committed there.
-/

namespace Cairn.Ports.Canonical

section Binding

variable [Sha256]

/-! ## One level -/

theorem getElem?_pairLevel (level : List String) (k : Nat) (h : 2 * k + 1 < level.length) :
    ∃ a b, level[2 * k]? = some a ∧ level[2 * k + 1]? = some b ∧
      (pairLevel level)[k]? = some (digestText (a ++ b)) ∧ (a ++ b) ∈ pairInputs level := by
  induction level using pairLevel.induct generalizing k with
  | case1 a b rest ih =>
    cases k with
    | zero => exact ⟨a, b, by simp, by simp, by simp [pairLevel], by simp [pairInputs]⟩
    | succ k =>
      simp only [List.length_cons] at h
      obtain ⟨x, y, hx, hy, hpair, hmem⟩ := ih k (by omega)
      refine ⟨x, y, ?_, ?_, ?_, ?_⟩
      · show (a :: b :: rest)[2 * k + 2]? = some x
        simpa using hx
      · show (a :: b :: rest)[2 * k + 1 + 2]? = some y
        simpa using hy
      · simpa [pairLevel] using hpair
      · simp [pairInputs, hmem]
  | case2 a =>
    simp only [List.length_cons, List.length_nil] at h
    omega
  | case3 =>
    simp only [List.length_nil] at h
    omega

/-- The odd last node is promoted as it is. -/
theorem getElem?_pairLevel_last (level : List String) (k : Nat) (h : level.length = 2 * k + 1) :
    (pairLevel level)[k]? = level[2 * k]? := by
  induction level using pairLevel.induct generalizing k with
  | case1 a b rest ih =>
    simp only [List.length_cons] at h
    cases k with
    | zero => omega
    | succ k =>
      have hrest := ih k (by omega)
      show (digestText (a ++ b) :: pairLevel rest)[k + 1]? = (a :: b :: rest)[2 * k + 2]?
      simpa using hrest
  | case2 a =>
    simp only [List.length_cons, List.length_nil] at h
    obtain rfl : k = 0 := by omega
    rfl
  | case3 =>
    simp only [List.length_nil] at h
    omega

theorem isDigest_pairLevel {level : List String} (h : ∀ x ∈ level, IsDigest x) :
    ∀ x ∈ pairLevel level, IsDigest x := by
  induction level using pairLevel.induct with
  | case1 a b rest ih =>
    intro x hx
    rcases List.mem_cons.mp hx with rfl | hx
    · exact isDigest_digestBytes _
    · exact ih (fun y hy => h y (by simp [hy])) x hx
  | case2 a => exact h
  | case3 => exact h

omit [Sha256] in
/-- Two digests joined with a node tell on which side the node stands. -/
theorem joinAt_side {here : Nat} {hash sibling a b : String} (hd : IsDigest hash)
    (ha : IsDigest a) (hb : IsDigest b) (h : joinAt here hash sibling = a ++ b) :
    hash = if here % 2 = 0 then a else b := by
  rw [joinAt] at h
  have hlist := congrArg String.toList h
  split_ifs at hlist ⊢ with hside
  · rw [String.toList_append, String.toList_append] at hlist
    have hlength : hash.toList.length = a.toList.length := by rw [hd.length, ha.length]
    exact String.toList_inj.mp (List.append_inj hlist hlength).1
  · rw [String.toList_append, String.toList_append] at hlist
    have hlength : hash.toList.length = b.toList.length := by rw [hd.length, hb.length]
    exact String.toList_inj.mp (List.append_inj_right' hlist hlength)

/-! ## The walk -/

variable {texts : String → Prop}

/-- A walk that arrives at the top of a level started at the node of its
position. -/
theorem walk_binds (hcol : NoCollision texts) (fuel : Nat) :
    ∀ (level : List String) (hash top : String) (here : Nat) (steps rest : List String),
      level.length ≤ fuel + 1 → here < level.length → (∀ x ∈ level, IsDigest x) →
      IsDigest hash → (∀ x ∈ reduceInputs fuel level, texts x) →
      (∀ x ∈ walkInputs fuel hash here level.length steps, texts x) →
      walk fuel hash here level.length steps = some (top, rest) →
      (reduceLevels fuel level).head? = some top → level[here]? = some hash := by
  induction fuel with
  | zero =>
    intro level hash top here steps rest hfuel hhere _ _ _ _ hwalk htop
    cases hwalk
    obtain rfl : here = 0 := by omega
    rw [← List.head?_eq_getElem?]
    exact htop
  | succ fuel ih =>
    intro level hash top here steps rest hfuel hhere hlevel hd hreduce hinputs hwalk htop
    unfold walkInputs at hinputs
    unfold walk at hwalk
    rw [reduceLevels] at htop
    rw [reduceInputs] at hreduce
    have hlength := length_pairLevel level
    split_ifs at hinputs hwalk htop hreduce with hwide hlast
    · -- an odd last node goes up as it is
      rw [← hlength] at hwalk hinputs
      have hup := ih (pairLevel level) hash top (here / 2) steps rest (by omega) (by omega)
        (isDigest_pairLevel hlevel) hd (fun x hx => hreduce x (List.mem_append_right _ hx))
        hinputs hwalk htop
      rw [getElem?_pairLevel_last level (here / 2) (by omega)] at hup
      have hhere' : 2 * (here / 2) = here := by omega
      rwa [hhere'] at hup
    · cases steps with
      | nil => cases hwalk
      | cons sibling steps =>
        dsimp only at hwalk hinputs
        rw [← hlength] at hwalk hinputs
        have hup := ih (pairLevel level) _ top (here / 2) steps rest (by omega) (by omega)
          (isDigest_pairLevel hlevel) (isDigest_digestBytes _)
          (fun x hx => hreduce x (List.mem_append_right _ hx))
          (fun x hx => hinputs x (List.mem_cons_of_mem _ hx)) hwalk htop
        obtain ⟨a, b, ha, hb, hpair, hmem⟩ := getElem?_pairLevel level (here / 2) (by omega)
        rw [hpair, Option.some.injEq] at hup
        have hjoin : joinAt here hash sibling = a ++ b :=
          hcol _ _ (hinputs _ (by simp)) (hreduce _ (List.mem_append_left _ hmem)) hup.symm
        have hside := joinAt_side hd (hlevel a (List.mem_of_getElem? ha))
          (hlevel b (List.mem_of_getElem? hb)) hjoin
        rw [hside]
        split_ifs with heven
        · have hhere' : 2 * (here / 2) = here := by omega
          rwa [hhere'] at ha
        · have hhere' : 2 * (here / 2) + 1 = here := by omega
          rwa [hhere'] at hb
    · cases hwalk
      obtain rfl : here = 0 := by omega
      rw [← List.head?_eq_getElem?]
      exact htop

/-- A verified path opens the leaf of its index. -/
theorem Inclusion.leaf_of_verify (hcol : NoCollision texts)
    {leaves : List String} {root leaf : String} {p : Inclusion} (hroot : merkleRoot leaves = some root)
    (hwidth : p.leaves = leaves.length) (hleaves : ∀ x ∈ leaves, IsDigest x) (hd : IsDigest leaf)
    (htree : ∀ x ∈ merkleInputs leaves, texts x) (hpath : ∀ x ∈ p.inputs leaf, texts x)
    (hverify : p.verify leaf root = true) : leaves[p.index]? = some leaf := by
  rw [Inclusion.verify, hwidth] at hverify
  rw [Inclusion.inputs, hwidth] at hpath
  split_ifs at hverify with hindex
  split at hverify
  · exact absurd hverify (by decide)
  · next hash steps hwalk =>
      obtain ⟨-, heq⟩ := Bool.and_eq_true_iff.mp hverify
      obtain rfl : hash = root := by simpa using heq
      exact walk_binds hcol leaves.length leaves leaf hash p.index p.siblings steps (by omega)
        (by omega) hleaves hd htree hpath hwalk hroot

/-- The texts a committed list of values hashes: the values, and the joined
nodes over their digests. -/
def CommittedTexts (values : List Value) (text : String) : Prop :=
  (∃ v ∈ values, text = v.canonicalString) ∨ text ∈ merkleInputs (values.map Value.digest)

/-- The texts an opening hashes: the value it shows, and the joins up its path. -/
def OpeningTexts (p : Inclusion) (v : Value) (text : String) : Prop :=
  text = v.canonicalString ∨ text ∈ p.inputs v.digest

/-- A path verified for a value opens the value committed at its index. -/
theorem Inclusion.value_of_verify (hcol : NoCollision texts)
    {values : List Value} {root : String} {p : Inclusion} {v : Value}
    (hroot : merkleRoot (values.map Value.digest) = some root) (hwidth : p.leaves = values.length)
    (hcommitted : ∀ x, CommittedTexts values x → texts x)
    (hopening : ∀ x, OpeningTexts p v x → texts x)
    (hverify : p.verify v.digest root = true) : values[p.index]? = some v := by
  have hleaf := Inclusion.leaf_of_verify hcol hroot (by rw [hwidth, List.length_map])
    (fun x hx => by
      obtain ⟨w, -, rfl⟩ := List.mem_map.mp hx
      exact isDigest_digestBytes _) (isDigest_digestBytes _)
    (fun x hx => hcommitted x (.inr hx)) (fun x hx => hopening x (.inr hx)) hverify
  rw [List.getElem?_map, Option.map_eq_some_iff] at hleaf
  obtain ⟨w, hw, hdigest⟩ := hleaf
  have hsame : w.canonicalString = v.canonicalString :=
    hcol _ _ (hcommitted _ (.inl ⟨w, List.mem_of_getElem? hw, rfl⟩)) (hopening _ (.inl rfl)) hdigest
  rw [hw, Value.canonicalString_injective hsame]

end Binding

end Cairn.Ports.Canonical
