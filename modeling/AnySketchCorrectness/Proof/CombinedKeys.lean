import AnySketchCorrectness.Proof.ElGamalKeys
import Mathlib.Algebra.Module.NatInt

/-!
# Keys combined over several rounds

The key of a group of parties can itself be combined with others, in any number of rounds. However
the parties are grouped, the key they end up with is the public key of the sum of their secrets.
-/

namespace AnySketchCorrectness

variable {Point : Type}

/-- A key that comes from the keys of some parties: the key of one party, or what the code combines
from keys that come from disjoint groups of parties. -/
inductive CombinedFrom (library : EcGroupLibrary Point) (curveId : Int32) :
    List ElGamalPublicKey → ElGamalPublicKey → Prop
  | party (key : ElGamalPublicKey) : CombinedFrom library curveId [key] key
  | combine {result : ElGamalPublicKey} (groups : List (List ElGamalPublicKey × ElGamalPublicKey)) :
      (∀ group ∈ groups, CombinedFrom library curveId group.1 group.2) →
      combineElGamalPublicKeys library curveId (groups.map Prod.snd) = .ok result →
      CombinedFrom library curveId (groups.flatMap Prod.fst) result

variable [AddCommGroup Point] {library : EcGroupLibrary Point} {ecGroup : EcGroup Point}
  {compress : Point → ByteString} {curveId : Int32}

/-- The keys have one generator, and the key made of them stands for their sum. It is written the
one way, but for the key of a single party, which is passed on as it came. -/
def StandsFor (ecGroup : EcGroup Point) (compress : Point → ByteString)
    (keys : List ElGamalPublicKey) (result : ElGamalPublicKey) : Prop :=
  keys = [result] ∨ ∃ total, SumsTo ecGroup keys result.generator total
    ∧ result.element = compress total

theorem StandsFor.sumsTo (hdecode : ∀ p q, ecGroup.createECPoint (compress p) = .ok q → q = p)
    {keys : List ElGamalPublicKey} {result : ElGamalPublicKey}
    (hstands : StandsFor ecGroup compress keys result) {generator : ByteString} {total : Point}
    (hsums : SumsTo ecGroup [result] generator total) :
    SumsTo ecGroup keys generator total := by
  rcases hstands with rfl | ⟨total', htotal, helement⟩
  · exact hsums
  · obtain ⟨rfl, hdecoded⟩ := sumsTo_singleton.mp hsums
    rw [helement] at hdecoded
    rw [hdecode total' total hdecoded]
    exact htotal

/-- The sum over the groups is the sum over the parties. -/
theorem sumsTo_flatMap (hdecode : ∀ p q, ecGroup.createECPoint (compress p) = .ok q → q = p)
    {groups : List (List ElGamalPublicKey × ElGamalPublicKey)}
    (hgroups : ∀ group ∈ groups, StandsFor ecGroup compress group.1 group.2)
    {generator : ByteString} {total : Point}
    (hsums : SumsTo ecGroup (groups.map Prod.snd) generator total) :
    SumsTo ecGroup (groups.flatMap Prod.fst) generator total := by
  induction groups generalizing total with
  | nil => exact hsums
  | cons group groups ih =>
      obtain ⟨hgroup, hrest⟩ := List.forall_mem_cons.mp hgroups
      obtain ⟨p, q, hp, hq, rfl⟩ := sumsTo_cons.mp hsums
      exact sumsTo_append.mpr ⟨p, q, hgroup.sumsTo hdecode hp, ih hrest hq, rfl⟩

/-- By induction on the rounds. -/
theorem CombinedFrom.standsFor (hgroup : ecGroup.IsGroup compress)
    (hcreate : library.create curveId = .ok ecGroup)
    (hdecode : ∀ p q, ecGroup.createECPoint (compress p) = .ok q → q = p)
    {keys : List ElGamalPublicKey} {result : ElGamalPublicKey}
    (hcombined : CombinedFrom library curveId keys result) :
    StandsFor ecGroup compress keys result := by
  induction hcombined with
  | party key => exact Or.inl rfl
  | @combine result groups _ hresult ih =>
      match groups with
      | [] => cases hresult
      | [group] =>
          cases hresult
          rw [List.flatMap_singleton]
          exact ih group (List.mem_singleton_self group)
      | first :: second :: rest =>
          have hlength : 2 ≤ ((first :: second :: rest).map Prod.snd).length :=
            Nat.le_add_left 2 (rest.map Prod.snd).length
          obtain ⟨total, hsums, -, helement⟩ :=
            (combineElGamalPublicKeys_eq_ok hgroup hcreate hlength).mp hresult
          exact Or.inr ⟨total, sumsTo_flatMap hdecode ih hsums, helement⟩

/-- The key of a party with this secret, for a generator that decodes to `base`. -/
structure IsPublicKey (ecGroup : EcGroup Point) (generator : ByteString) (base : Point)
    (secret : ℕ) (key : ElGamalPublicKey) : Prop where
  generator_eq : key.generator = generator
  element_eq : ecGroup.createECPoint key.element = .ok (secret • base)

theorem sumsTo_of_isPublicKey {generator : ByteString} {base : Point} {secrets : List ℕ}
    {keys : List ElGamalPublicKey}
    (hkeys : List.Forall₂ (IsPublicKey ecGroup generator base) secrets keys) :
    SumsTo ecGroup keys generator (secrets.sum • base) := by
  induction hkeys with
  | nil => exact sumsTo_nil.mpr (zero_nsmul base)
  | cons hkey _ ih =>
      have hsingleton := sumsTo_singleton.mpr ⟨hkey.generator_eq, hkey.element_eq⟩
      rw [List.sum_cons, add_nsmul]
      exact sumsTo_cons.mpr ⟨_, _, hsingleton, ih, rfl⟩

theorem SumsTo.unique {keys : List ElGamalPublicKey} (hne : keys ≠ [])
    {generator generator' : ByteString} {total total' : Point}
    (hsums : SumsTo ecGroup keys generator total)
    (hsums' : SumsTo ecGroup keys generator' total') : generator = generator' ∧ total = total' := by
  obtain ⟨hgenerator, points, hdecodes, rfl⟩ := hsums
  obtain ⟨hgenerator', points', hdecodes', rfl⟩ := hsums'
  obtain ⟨key, hmem⟩ := List.exists_mem_of_ne_nil keys hne
  exact ⟨(hgenerator key hmem).symm.trans (hgenerator' key hmem), by
    rw [hdecodes.unique hdecodes']⟩

omit [AddCommGroup Point] in
theorem CombinedFrom.ne_nil {keys : List ElGamalPublicKey} {result : ElGamalPublicKey}
    (hcombined : CombinedFrom library curveId keys result) : keys ≠ [] := by
  induction hcombined with
  | party key => exact List.cons_ne_nil key []
  | combine groups _ hresult ih =>
      cases groups with
      | nil => cases hresult
      | cons group groups =>
          rw [List.flatMap_cons]
          exact List.append_ne_nil_of_left_ne_nil (ih group List.mem_cons_self) _

/-- A group that has an encoding takes part in the next round with the sum of its secrets. -/
theorem CombinedFrom.sumsTo (hgroup : ecGroup.IsGroup compress)
    (hcreate : library.create curveId = .ok ecGroup)
    (hdecode : ∀ p q, ecGroup.createECPoint (compress p) = .ok q → q = p)
    {generator : ByteString} {base : Point} {secrets : List ℕ} {keys : List ElGamalPublicKey}
    {result : ElGamalPublicKey} (hcombined : CombinedFrom library curveId keys result)
    (hkeys : List.Forall₂ (IsPublicKey ecGroup generator base) secrets keys)
    (hnonzero : secrets.sum • base ≠ 0) :
    SumsTo ecGroup [result] generator (secrets.sum • base) := by
  have hsums := sumsTo_of_isPublicKey hkeys
  rcases hcombined.standsFor hgroup hcreate hdecode with rfl | ⟨total, htotal, helement⟩
  · exact hsums
  · obtain ⟨hgenerator, rfl⟩ := htotal.unique hcombined.ne_nil hsums
    refine sumsTo_singleton.mpr ⟨hgenerator, ?_⟩
    rw [helement, hgroup.createECPoint_eq _ hnonzero]

theorem exists_sumsTo {generator : ByteString} {keys : List ElGamalPublicKey}
    (hkeys : ∀ key ∈ keys, ∃ p, SumsTo ecGroup [key] generator p) :
    ∃ total, SumsTo ecGroup keys generator total := by
  induction keys with
  | nil => exact ⟨0, sumsTo_nil.mpr rfl⟩
  | cons key keys ih =>
      obtain ⟨⟨p, hp⟩, hrest⟩ := List.forall_mem_cons.mp hkeys
      obtain ⟨q, hq⟩ := ih hrest
      exact ⟨p + q, sumsTo_cons.mpr ⟨p, q, hp, hq, rfl⟩⟩

/-- **Combining keys in rounds.** In whatever order and groups at least two parties combine their
keys, over any number of rounds, they end up with one key, the public key of the sum of their
secrets. As long as the secrets of no group of a round add up to the identity, the round fails
exactly if those of all its groups together do. -/
theorem combinedFrom_publicKey (hgroup : ecGroup.IsGroup compress)
    (hcreate : library.create curveId = .ok ecGroup)
    (hdecode : ∀ p q, ecGroup.createECPoint (compress p) = .ok q → q = p)
    {generator : ByteString} {base : Point} :
    (∀ (secrets : List ℕ) (keys order : List ElGamalPublicKey) (result : ElGamalPublicKey),
      List.Forall₂ (IsPublicKey ecGroup generator base) secrets keys → 2 ≤ keys.length →
      order.Perm keys → CombinedFrom library curveId order result →
      result = { generator, element := compress (secrets.sum • base) }) ∧
    ∀ (groups : List (List ElGamalPublicKey × ElGamalPublicKey)) (secrets : List ℕ),
      2 ≤ groups.length →
      List.Forall₂ (IsPublicKey ecGroup generator base) secrets (groups.flatMap Prod.fst) →
      (∀ group ∈ groups, CombinedFrom library curveId group.1 group.2 ∧
        ∃ secrets, List.Forall₂ (IsPublicKey ecGroup generator base) secrets group.1 ∧
          secrets.sum • base ≠ 0) →
      ((∃ result, combineElGamalPublicKeys library curveId (groups.map Prod.snd) = .ok result)
        ↔ secrets.sum • base ≠ 0) := by
  constructor
  · intro secrets keys order result hkeys hlength hperm hcombined
    have hsums := (sumsTo_of_isPublicKey hkeys).perm hperm
    rcases hcombined.standsFor hgroup hcreate hdecode with rfl | ⟨total, htotal, helement⟩
    · rw [← hperm.length_eq, List.length_singleton] at hlength
      omega
    · obtain ⟨hgenerator, rfl⟩ := htotal.unique hcombined.ne_nil hsums
      rw [← hgenerator, ← helement]
  · intro groups secrets hlength hkeys hgroups
    have hstands : ∀ group ∈ groups, StandsFor ecGroup compress group.1 group.2 :=
      fun group hmem => (hgroups group hmem).1.standsFor hgroup hcreate hdecode
    have hne : groups.flatMap Prod.fst ≠ [] := by
      obtain ⟨group, hmem⟩ := List.exists_mem_of_length_pos (Nat.zero_lt_of_lt hlength)
      exact fun hnil => (hgroups group hmem).1.ne_nil (List.flatMap_eq_nil_iff.mp hnil group hmem)
    have htotal : ∀ generator' total,
        SumsTo ecGroup (groups.map Prod.snd) generator' total → total = secrets.sum • base :=
      fun generator' total hsums =>
        ((sumsTo_flatMap hdecode hstands hsums).unique hne (sumsTo_of_isPublicKey hkeys)).2
    have hround := fun result => @combineElGamalPublicKeys_eq_ok _ _ library ecGroup compress
      hgroup curveId hcreate (groups.map Prod.snd) ((List.length_map _).symm ▸ hlength) result
    simp only [hround]
    constructor
    · rintro ⟨result, total, hsums, hnonzero, -⟩
      rwa [← htotal result.generator total hsums]
    · intro hnonzero
      obtain ⟨total, hsums⟩ := exists_sumsTo fun key hkey => by
        obtain ⟨group, hmem, rfl⟩ := List.mem_map.mp hkey
        obtain ⟨hcombined, secrets', hkeys', hnonzero'⟩ := hgroups group hmem
        exact ⟨_, hcombined.sumsTo hgroup hcreate hdecode hkeys' hnonzero'⟩
      refine ⟨{ generator, element := compress total }, total, hsums, ?_, rfl⟩
      rwa [htotal generator total hsums]

theorem sampleKey_isPublicKey (secret : ℕ) :
    IsPublicKey sampleGroup (sampleBytes 1) 1 secret (sampleKey secret) where
  generator_eq := rfl
  element_eq := by rw [sampleKey, sampleGroup_createECPoint, nsmul_one]

/-- Two parties combine their keys first. -/
theorem combinedFrom_publicKey_sampleKeys : ∃ part,
    combineElGamalPublicKeys sampleGroupLibrary 415 [sampleKey (3 : ℕ), sampleKey (4 : ℕ)]
      = .ok part ∧
    combineElGamalPublicKeys sampleGroupLibrary 415 [sampleKey (5 : ℕ), part]
      = .ok { generator := sampleBytes 1, element := sampleBytes (12 : ℕ) } := by
  have hdecode : ∀ p q, sampleGroup.createECPoint (sampleBytes p) = .ok q → q = p := by
    intro p q hdecoded
    rw [sampleGroup_createECPoint, Except.ok.injEq] at hdecoded
    exact hdecoded.symm
  have hcreate : sampleGroupLibrary.create 415 = .ok sampleGroup := rfl
  obtain ⟨hkey, hround⟩ := @combinedFrom_publicKey _ _ sampleGroupLibrary sampleGroup sampleBytes
    415 sampleGroup_isGroup hcreate hdecode (sampleBytes 1) 1
  have hparty : ∀ secret : ℕ, (secret : ZMod 251) ≠ 0 →
      CombinedFrom sampleGroupLibrary 415 [sampleKey secret] (sampleKey secret) ∧
      ∃ secrets, List.Forall₂ (IsPublicKey sampleGroup (sampleBytes 1) 1) secrets
          [sampleKey secret] ∧ secrets.sum • (1 : ZMod 251) ≠ 0 := by
    intro secret hnonzero
    refine ⟨.party _, [secret], .cons (sampleKey_isPublicKey secret) .nil, ?_⟩
    rwa [List.sum_singleton, nsmul_one]
  have hparties : List.Forall₂ (IsPublicKey sampleGroup (sampleBytes 1) 1) [3, 4]
      [sampleKey (3 : ℕ), sampleKey (4 : ℕ)] :=
    .cons (sampleKey_isPublicKey 3) (.cons (sampleKey_isPublicKey 4) .nil)
  obtain ⟨part, hpart⟩ := (hround [([sampleKey (3 : ℕ)], sampleKey (3 : ℕ)),
      ([sampleKey (4 : ℕ)], sampleKey (4 : ℕ))] [3, 4] (Nat.le_refl 2) hparties (by
    intro group hmem
    rcases List.mem_pair.mp hmem with rfl | rfl
    · exact hparty 3 (by decide)
    · exact hparty 4 (by decide))).mpr (by decide)
  have hcombined : CombinedFrom sampleGroupLibrary 415
      [sampleKey (3 : ℕ), sampleKey (4 : ℕ)] part :=
    .combine [([sampleKey (3 : ℕ)], sampleKey (3 : ℕ)),
      ([sampleKey (4 : ℕ)], sampleKey (4 : ℕ))] (by
        intro group hmem
        rcases List.mem_pair.mp hmem with rfl | rfl <;> exact .party _) hpart
  obtain ⟨result, hresult⟩ := (hround [([sampleKey (5 : ℕ)], sampleKey (5 : ℕ)),
      ([sampleKey (3 : ℕ), sampleKey (4 : ℕ)], part)] [5, 3, 4] (Nat.le_refl 2)
      (.cons (sampleKey_isPublicKey 5) hparties) (by
    intro group hmem
    rcases List.mem_pair.mp hmem with rfl | rfl
    · exact hparty 5 (by decide)
    · exact ⟨hcombined, [3, 4], hparties, by decide⟩)).mpr (by decide)
  have htree : CombinedFrom sampleGroupLibrary 415
      [sampleKey (5 : ℕ), sampleKey (3 : ℕ), sampleKey (4 : ℕ)] result :=
    .combine [([sampleKey (5 : ℕ)], sampleKey (5 : ℕ)),
      ([sampleKey (3 : ℕ), sampleKey (4 : ℕ)], part)] (by
        intro group hmem
        rcases List.mem_pair.mp hmem with rfl | rfl
        · exact .party _
        · exact hcombined) hresult
  have hsum := hkey [5, 3, 4] _ _ result (.cons (sampleKey_isPublicKey 5) hparties)
    (by decide) (List.Perm.refl _) htree
  refine ⟨part, hpart, hresult.trans ?_⟩
  rw [hsum]
  rfl

end AnySketchCorrectness
