import AnySketchCorrectness.ElGamalKeys
import AnySketchCorrectness.Proof.CipherSketch
import Mathlib.Algebra.BigOperators.Group.List.Basic
import Mathlib.Data.List.Forall2
import Mathlib.Data.List.Perm.Basic

/-!
# The combined key is the sum of the keys

Whether keys can be combined, and what they combine to, depends on the generators and the sum of the
points that the elements decode to. Neither depends on the order or the grouping of the keys, as
long as the point between two groupings has an encoding.
-/

namespace AnySketchCorrectness

variable {Point : Type} [AddCommGroup Point]

/-- What the code relies on: `add` is the addition of an abelian group, and every point but the
identity has a compressed form and is decoded from it. There is no string for the identity. -/
structure EcGroup.IsGroup (ecGroup : EcGroup Point) (compress : Point → ByteString) : Prop where
  add_eq : ∀ p q, ecGroup.add p q = .ok (p + q)
  toBytesCompressed_eq : ∀ p, p ≠ 0 → ecGroup.toBytesCompressed p = .ok (compress p)
  toBytesCompressed_zero : ∀ bytes, ecGroup.toBytesCompressed 0 ≠ .ok bytes
  createECPoint_eq : ∀ p, p ≠ 0 → ecGroup.createECPoint (compress p) = .ok p

theorem EcGroup.IsGroup.toBytesCompressed_eq_ok {ecGroup : EcGroup Point}
    {compress : Point → ByteString} (hgroup : ecGroup.IsGroup compress) {p : Point}
    {bytes : ByteString} :
    ecGroup.toBytesCompressed p = .ok bytes ↔ p ≠ 0 ∧ bytes = compress p := by
  by_cases hp : p = 0
  · rw [hp]
    exact iff_of_false (hgroup.toBytesCompressed_zero bytes) fun hbytes => hbytes.1 rfl
  · rw [hgroup.toBytesCompressed_eq p hp, Except.ok.injEq, and_iff_right hp, eq_comm]

/-- The elements of the keys decode to these points. -/
abbrev Decodes (ecGroup : EcGroup Point) (keys : List ElGamalPublicKey) (points : List Point) :
    Prop :=
  List.Forall₂ (fun key point => ecGroup.createECPoint key.element = .ok point) keys points

omit [AddCommGroup Point] in
theorem Decodes.unique {ecGroup : EcGroup Point} {keys : List ElGamalPublicKey}
    {points points' : List Point} (hdecodes : Decodes ecGroup keys points)
    (hdecodes' : Decodes ecGroup keys points') : points = points' := by
  refine List.right_unique_forall₂' ?_ hdecodes hdecodes'
  intro key p q hp hq
  rw [hp, Except.ok.injEq] at hq
  exact hq

/-- The keys have one generator, and their elements decode to points with this sum. -/
structure SumsTo (ecGroup : EcGroup Point) (keys : List ElGamalPublicKey) (generator : ByteString)
    (total : Point) : Prop where
  generator_eq : ∀ key ∈ keys, key.generator = generator
  decodes : ∃ points, Decodes ecGroup keys points ∧ points.sum = total

omit [AddCommGroup Point] in
theorem assignOrReturnError_eq_ok {library : EcGroupLibrary Point} {α : Type} {rexpr : StatusOr α}
    {message : String} {a : α} :
    assignOrReturnError library rexpr message = .ok a ↔ rexpr = .ok a := by
  cases rexpr with
  | error failure => simp [assignOrReturnError]
  | ok a => simp [assignOrReturnError]

section SumsTo

variable {ecGroup : EcGroup Point} {generator : ByteString} {total : Point}

omit [AddCommGroup Point] in
theorem exists_decodes_iff {keys : List ElGamalPublicKey} :
    (∃ points, Decodes ecGroup keys points)
      ↔ ∀ key ∈ keys, ∃ point, ecGroup.createECPoint key.element = .ok point := by
  induction keys with
  | nil => exact iff_of_true ⟨[], .nil⟩ (fun key hkey => absurd hkey List.not_mem_nil)
  | cons key keys ih =>
      rw [List.forall_mem_cons, ← ih]
      constructor
      · rintro ⟨_, hdecodes⟩
        cases hdecodes with
        | cons hkey hkeys => exact ⟨⟨_, hkey⟩, _, hkeys⟩
      · rintro ⟨⟨point, hkey⟩, points, hkeys⟩
        exact ⟨point :: points, .cons hkey hkeys⟩

theorem sumsTo_nil : SumsTo ecGroup [] generator total ↔ total = 0 := by
  constructor
  · rintro ⟨-, _, hdecodes, hsum⟩
    cases hdecodes
    rw [← hsum, List.sum_nil]
  · rintro rfl
    exact ⟨fun key hmem => absurd hmem List.not_mem_nil, [], .nil, List.sum_nil⟩

theorem sumsTo_singleton {key : ElGamalPublicKey} :
    SumsTo ecGroup [key] generator total
      ↔ key.generator = generator ∧ ecGroup.createECPoint key.element = .ok total := by
  constructor
  · rintro ⟨hgenerator, _, hdecodes, hsum⟩
    cases hdecodes with
    | cons hkey hnil =>
        cases hnil
        rw [List.sum_singleton] at hsum
        exact ⟨hgenerator key (List.mem_singleton_self key), hsum ▸ hkey⟩
  · rintro ⟨rfl, hkey⟩
    exact ⟨fun key' hmem => List.mem_singleton.mp hmem ▸ rfl, [total],
      .cons hkey .nil, List.sum_singleton⟩

theorem sumsTo_append {left right : List ElGamalPublicKey} :
    SumsTo ecGroup (left ++ right) generator total
      ↔ ∃ p q, SumsTo ecGroup left generator p ∧ SumsTo ecGroup right generator q
        ∧ p + q = total := by
  constructor
  · rintro ⟨hgenerator, points, hdecodes, rfl⟩
    rw [List.forall_mem_append] at hgenerator
    have hleft := List.forall₂_take left.length hdecodes
    have hright := List.forall₂_drop left.length hdecodes
    rw [List.take_left] at hleft
    rw [List.drop_left] at hright
    exact ⟨_, _, ⟨hgenerator.1, _, hleft, rfl⟩, ⟨hgenerator.2, _, hright, rfl⟩,
      List.sum_take_add_sum_drop points left.length⟩
  · rintro ⟨p, q, hleft, hright, rfl⟩
    obtain ⟨points, hpoints, rfl⟩ := hleft.decodes
    obtain ⟨points', hpoints', rfl⟩ := hright.decodes
    exact ⟨List.forall_mem_append.mpr ⟨hleft.generator_eq, hright.generator_eq⟩,
      points ++ points', List.rel_append hpoints hpoints', List.sum_append⟩

theorem sumsTo_cons {key : ElGamalPublicKey} {keys : List ElGamalPublicKey} :
    SumsTo ecGroup (key :: keys) generator total
      ↔ ∃ p q, SumsTo ecGroup [key] generator p ∧ SumsTo ecGroup keys generator q
        ∧ p + q = total := by
  rw [← List.singleton_append, sumsTo_append]

theorem SumsTo.perm {keys keys' : List ElGamalPublicKey}
    (hsums : SumsTo ecGroup keys generator total) (hperm : keys'.Perm keys) :
    SumsTo ecGroup keys' generator total := by
  obtain ⟨points, hdecodes, hsum⟩ := hsums.decodes
  obtain ⟨points', hdecodes', hperm'⟩ := List.perm_comp_forall₂ hperm hdecodes
  exact ⟨fun key hmem => hsums.generator_eq key (hperm.mem_iff.mp hmem), points', hdecodes',
    hperm'.sum_eq.trans hsum⟩

theorem SumsTo.ne_zero {keys : List ElGamalPublicKey} (hsums : SumsTo ecGroup keys generator total)
    (hnonzero : ∀ points, Decodes ecGroup keys points → points.sum ≠ 0) : total ≠ 0 := by
  obtain ⟨points, hdecodes, rfl⟩ := hsums.decodes
  exact hnonzero points hdecodes

end SumsTo

section Combine

variable {library : EcGroupLibrary Point} {ecGroup : EcGroup Point} {compress : Point → ByteString}
  (hgroup : ecGroup.IsGroup compress)

include hgroup in
theorem combineElement_eq_ok {generator : ByteString} {accumulated total : Point}
    {key : ElGamalPublicKey} :
    combineElement library ecGroup generator accumulated key = .ok total
      ↔ key.generator = generator
        ∧ ∃ p, ecGroup.createECPoint key.element = .ok p ∧ accumulated + p = total := by
  unfold combineElement
  by_cases hgenerator : key.generator = generator
  · have hadd : ∀ p, ecGroup.add accumulated p = .ok total ↔ accumulated + p = total := by
      intro p
      rw [hgroup.add_eq, Except.ok.injEq]
    simp [hgenerator, StatusOr.bind_eq_ok, assignOrReturnError_eq_ok, hadd]
  · rw [if_pos hgenerator]
    refine iff_of_false ?_ (fun hkey => hgenerator hkey.1)
    rintro ⟨⟩

include hgroup in
/-- **The loop.** What it adds to the first element is the sum of the others. -/
theorem foldlM_combineElement_eq_ok {generator : ByteString} {keys : List ElGamalPublicKey}
    {accumulated total : Point} :
    keys.foldlM (combineElement library ecGroup generator) accumulated = .ok total
      ↔ ∃ p, SumsTo ecGroup keys generator p ∧ accumulated + p = total := by
  induction keys generalizing accumulated with
  | nil =>
      rw [List.foldlM_nil]
      constructor
      · intro hresult
        cases hresult
        exact ⟨0, sumsTo_nil.mpr rfl, add_zero _⟩
      · rintro ⟨p, hsums, hsum⟩
        rw [sumsTo_nil.mp hsums, add_zero] at hsum
        rw [hsum]
        rfl
  | cons key keys ih =>
      rw [List.foldlM_cons, StatusOr.bind_eq_ok]
      constructor
      · rintro ⟨next, hkey, hkeys⟩
        obtain ⟨hgenerator, p, hdecoded, rfl⟩ := (combineElement_eq_ok hgroup).mp hkey
        obtain ⟨q, hsums, rfl⟩ := ih.mp hkeys
        have hsingleton := sumsTo_singleton.mpr ⟨hgenerator, hdecoded⟩
        exact ⟨p + q, sumsTo_cons.mpr ⟨p, q, hsingleton, hsums, rfl⟩,
          (add_assoc accumulated p q).symm⟩
      · rintro ⟨_, hsums, rfl⟩
        obtain ⟨p, q, hsingleton, hsums', rfl⟩ := sumsTo_cons.mp hsums
        obtain ⟨hgenerator, hdecoded⟩ := sumsTo_singleton.mp hsingleton
        exact ⟨accumulated + p, (combineElement_eq_ok hgroup).mpr ⟨hgenerator, p, hdecoded, rfl⟩,
          ih.mpr ⟨q, hsums', add_assoc accumulated p q⟩⟩

variable {curveId : Int32} (hcreate : library.create curveId = .ok ecGroup)

include hgroup hcreate in
theorem combineElGamalPublicKeys_eq_ok {keys : List ElGamalPublicKey} (hkeys : 2 ≤ keys.length)
    {result : ElGamalPublicKey} :
    combineElGamalPublicKeys library curveId keys = .ok result
      ↔ ∃ total, SumsTo ecGroup keys result.generator total ∧ total ≠ 0
        ∧ result.element = compress total := by
  match keys, hkeys with
  | first :: second :: rest, _ =>
      simp only [combineElGamalPublicKeys, combineKeys, StatusOr.bind_eq_ok,
        assignOrReturnError_eq_ok]
      constructor
      · rintro ⟨_, hcreate', p, hfirst, total, hrest, element, helement, hresult⟩
        rw [hcreate, Except.ok.injEq] at hcreate'
        subst hcreate'
        cases hresult
        obtain ⟨q, hsums, rfl⟩ := (foldlM_combineElement_eq_ok hgroup).mp hrest
        have hsingleton := sumsTo_singleton.mpr ⟨rfl, hfirst⟩
        exact ⟨p + q, sumsTo_cons.mpr ⟨p, q, hsingleton, hsums, rfl⟩,
          hgroup.toBytesCompressed_eq_ok.mp helement⟩
      · rintro ⟨_, hsums, hnonzero, helement⟩
        obtain ⟨p, q, hsingleton, hsums', rfl⟩ := sumsTo_cons.mp hsums
        obtain ⟨hgenerator, hfirst⟩ := sumsTo_singleton.mp hsingleton
        rw [← hgenerator] at hsums'
        refine ⟨ecGroup, hcreate, p, hfirst, p + q, ?_, compress (p + q),
          hgroup.toBytesCompressed_eq (p + q) hnonzero, ?_⟩
        · exact (foldlM_combineElement_eq_ok hgroup).mpr ⟨q, hsums', rfl⟩
        rw [hgenerator, ← helement]
        rfl

/-- Two parts combined on their own, and then with each other. -/
def combineParts (library : EcGroupLibrary Point) (curveId : Int32)
    (left right : List ElGamalPublicKey) : StatusOr ElGamalPublicKey := do
  let leftKey ← combineElGamalPublicKeys library curveId left
  let rightKey ← combineElGamalPublicKeys library curveId right
  combineElGamalPublicKeys library curveId [leftKey, rightKey]

include hgroup hcreate in
/-- The key of a part stands for its sum. A part of one key is returned as it is. -/
theorem exists_combined_iff {part : List ElGamalPublicKey} (hpart : part ≠ [])
    (hnonzero : ∀ points, Decodes ecGroup part points → points.sum ≠ 0) {generator : ByteString}
    {total : Point} :
    (∃ key, combineElGamalPublicKeys library curveId part = .ok key
        ∧ SumsTo ecGroup [key] generator total) ↔ SumsTo ecGroup part generator total := by
  have hdecoded : ∀ {generator total}, SumsTo ecGroup part generator total →
      ecGroup.createECPoint (compress total) = .ok total :=
    fun hsums => hgroup.createECPoint_eq _ (hsums.ne_zero hnonzero)
  match part, hpart with
  | [key], _ =>
      constructor
      · rintro ⟨key', hresult, hsums⟩
        cases hresult
        exact hsums
      · intro hsums
        exact ⟨key, rfl, hsums⟩
  | first :: second :: rest, _ =>
      have hlength : 2 ≤ (first :: second :: rest).length := Nat.le_add_left 2 rest.length
      constructor
      · rintro ⟨key, hresult, hsingleton⟩
        obtain ⟨hgenerator, hkey⟩ := sumsTo_singleton.mp hsingleton
        obtain ⟨total', hsums, -, helement⟩ :=
          (combineElGamalPublicKeys_eq_ok hgroup hcreate hlength).mp hresult
        rw [helement, hdecoded hsums, Except.ok.injEq] at hkey
        rw [← hgenerator, ← hkey]
        exact hsums
      · intro hsums
        refine ⟨{ generator, element := compress total }, ?_,
          sumsTo_singleton.mpr ⟨rfl, hdecoded hsums⟩⟩
        exact (combineElGamalPublicKeys_eq_ok hgroup hcreate hlength).mpr
          ⟨total, hsums, hsums.ne_zero hnonzero, rfl⟩

include hgroup hcreate in
theorem combineParts_eq_ok {left right : List ElGamalPublicKey} (hleft : left ≠ [])
    (hright : right ≠ []) (hleftSum : ∀ points, Decodes ecGroup left points → points.sum ≠ 0)
    (hrightSum : ∀ points, Decodes ecGroup right points → points.sum ≠ 0)
    {result : ElGamalPublicKey} :
    combineParts library curveId left right = .ok result
      ↔ ∃ total, SumsTo ecGroup (left ++ right) result.generator total ∧ total ≠ 0
        ∧ result.element = compress total := by
  have hcombined := fun leftKey rightKey => @combineElGamalPublicKeys_eq_ok _ _ library ecGroup
    compress hgroup curveId hcreate [leftKey, rightKey] (Nat.le_refl 2) result
  simp only [combineParts, StatusOr.bind_eq_ok, hcombined]
  constructor
  · rintro ⟨leftKey, hleftKey, rightKey, hrightKey, _, hsums, hnonzero, helement⟩
    obtain ⟨p, q, hp, hq, rfl⟩ := sumsTo_cons.mp hsums
    have hleftSums := (exists_combined_iff hgroup hcreate hleft hleftSum).mp ⟨_, hleftKey, hp⟩
    have hrightSums := (exists_combined_iff hgroup hcreate hright hrightSum).mp ⟨_, hrightKey, hq⟩
    exact ⟨p + q, sumsTo_append.mpr ⟨p, q, hleftSums, hrightSums, rfl⟩, hnonzero, helement⟩
  · rintro ⟨_, hsums, hnonzero, helement⟩
    obtain ⟨p, q, hleftSums, hrightSums, rfl⟩ := sumsTo_append.mp hsums
    obtain ⟨leftKey, hleftKey, hp⟩ :=
      (exists_combined_iff hgroup hcreate hleft hleftSum).mpr hleftSums
    obtain ⟨rightKey, hrightKey, hq⟩ :=
      (exists_combined_iff hgroup hcreate hright hrightSum).mpr hrightSums
    exact ⟨leftKey, hleftKey, rightKey, hrightKey, p + q,
      sumsTo_cons.mpr ⟨p, q, hp, hq, rfl⟩, hnonzero, helement⟩

omit [AddCommGroup Point] in
theorem toOption_eq_of_iff {α : Type} {x y : StatusOr α} (hiff : ∀ a, x = .ok a ↔ y = .ok a) :
    x.toOption = y.toOption := by
  cases x with
  | ok a => rw [(hiff a).mp rfl]
  | error failure =>
      cases y with
      | ok a => exact absurd ((hiff a).mpr rfl) (by simp)
      | error failure' => rfl

include hgroup hcreate in
/-- **Combining keys.** The outcome depends on the generators and the sum of the elements, so on
neither the order nor the grouping of the keys. A sum that is the identity cannot be returned. -/
theorem combineElGamalPublicKeys_spec {keys : List ElGamalPublicKey} (hkeys : 2 ≤ keys.length) :
    ((∃ result, combineElGamalPublicKeys library curveId keys = .ok result)
      ↔ (∃ generator, ∀ key ∈ keys, key.generator = generator)
        ∧ (∀ key ∈ keys, ∃ point, ecGroup.createECPoint key.element = .ok point)
        ∧ ∀ points, Decodes ecGroup keys points → points.sum ≠ 0)
    ∧ (∀ result, combineElGamalPublicKeys library curveId keys = .ok result →
      (∀ key ∈ keys, key.generator = result.generator)
        ∧ ∃ points, Decodes ecGroup keys points ∧ result.element = compress points.sum)
    ∧ (∀ keys', keys'.Perm keys →
      (combineElGamalPublicKeys library curveId keys').toOption
        = (combineElGamalPublicKeys library curveId keys).toOption)
    ∧ ∀ left right, left ≠ [] → right ≠ [] → (left ++ right).Perm keys →
      (∀ points, Decodes ecGroup left points → points.sum ≠ 0) →
      (∀ points, Decodes ecGroup right points → points.sum ≠ 0) →
      (combineParts library curveId left right).toOption
        = (combineElGamalPublicKeys library curveId keys).toOption := by
  have hresult := @combineElGamalPublicKeys_eq_ok _ _ library ecGroup compress hgroup curveId
    hcreate
  refine ⟨?_, ?_, ?_, ?_⟩
  · rw [← exists_decodes_iff]
    constructor
    · rintro ⟨result, hrun⟩
      obtain ⟨_, ⟨hgenerator, points, hdecodes, rfl⟩, hnonzero, -⟩ := (hresult hkeys).mp hrun
      refine ⟨⟨result.generator, hgenerator⟩, ⟨points, hdecodes⟩, fun points' hdecodes' => ?_⟩
      rwa [← hdecodes.unique hdecodes']
    · rintro ⟨⟨generator, hgenerator⟩, ⟨points, hdecodes⟩, hnonzero⟩
      exact ⟨{ generator, element := compress points.sum }, (hresult hkeys).mpr
        ⟨points.sum, ⟨hgenerator, points, hdecodes, rfl⟩, hnonzero points hdecodes, rfl⟩⟩
  · intro result hrun
    obtain ⟨_, ⟨hgenerator, points, hdecodes, rfl⟩, -, helement⟩ := (hresult hkeys).mp hrun
    exact ⟨hgenerator, points, hdecodes, helement⟩
  · intro keys' hperm
    apply toOption_eq_of_iff
    intro result
    rw [hresult hkeys, hresult (hperm.length_eq ▸ hkeys)]
    exact ⟨fun ⟨total, hsums, helement⟩ => ⟨total, hsums.perm hperm.symm, helement⟩,
      fun ⟨total, hsums, helement⟩ => ⟨total, hsums.perm hperm, helement⟩⟩
  · intro left right hleft hright hperm hleftSum hrightSum
    apply toOption_eq_of_iff
    intro result
    rw [hresult hkeys, combineParts_eq_ok hgroup hcreate hleft hright hleftSum hrightSum]
    exact ⟨fun ⟨total, hsums, helement⟩ => ⟨total, hsums.perm hperm.symm, helement⟩,
      fun ⟨total, hsums, helement⟩ => ⟨total, hsums.perm hperm, helement⟩⟩

end Combine

def sampleGroup : EcGroup (ZMod 251) where
  createECPoint bytes :=
    if bytes.length = bytesPerEcPoint then .ok (samplePoint bytes)
    else .error (.invalidArgument "ECGroup::CreateECPoint(string) - Could not decode point.")
  add P Q := .ok (P + Q)
  toBytesCompressed P :=
    if P = 0 then .error (.internal "EC_POINT_point2oct failed")
    else .ok (sampleBytes P)

theorem sampleGroup_createECPoint (P : ZMod 251) :
    sampleGroup.createECPoint (sampleBytes P) = .ok P := by
  have hlength : (sampleBytes P).length = bytesPerEcPoint := rfl
  simp only [sampleGroup, if_pos hlength, samplePoint_sampleBytes]

theorem sampleGroup_isGroup : sampleGroup.IsGroup sampleBytes where
  add_eq _ _ := rfl
  toBytesCompressed_eq P hP := if_neg hP
  toBytesCompressed_zero bytes := by simp [sampleGroup]
  createECPoint_eq P _ := sampleGroup_createECPoint P

def sampleGroupLibrary : EcGroupLibrary (ZMod 251) where
  create curveId :=
    if curveId = 415 then .ok sampleGroup
    else .error (.invalidArgument "ECGroup::Create() - Could not create group.")
  returnedError _ message := .invalidArgument message

def sampleKey (P : ZMod 251) : ElGamalPublicKey :=
  { generator := sampleBytes 1, element := sampleBytes P }

theorem sampleKey_decodes {P : ZMod 251} {points : List (ZMod 251)} {keys : List ElGamalPublicKey}
    (hdecodes : Decodes sampleGroup (sampleKey P :: keys) points) :
    ∃ rest, Decodes sampleGroup keys rest ∧ points = P :: rest := by
  cases hdecodes with
  | cons hkey hkeys =>
      rw [sampleKey, sampleGroup_createECPoint, Except.ok.injEq] at hkey
      subst hkey
      exact ⟨_, hkeys, rfl⟩

theorem combineElGamalPublicKeys_spec_sampleKeys :
    (∃ result, combineElGamalPublicKeys sampleGroupLibrary 415
      [sampleKey 3, sampleKey 4, sampleKey 5] = .ok result)
    ∧ (combineParts sampleGroupLibrary 415 [sampleKey 5] [sampleKey 3, sampleKey 4]).toOption
      = (combineElGamalPublicKeys sampleGroupLibrary 415
        [sampleKey 3, sampleKey 4, sampleKey 5]).toOption := by
  obtain ⟨hsuccess, -, -, hparts⟩ := @combineElGamalPublicKeys_spec _ _ sampleGroupLibrary
    sampleGroup sampleBytes sampleGroup_isGroup 415 rfl [sampleKey 3, sampleKey 4, sampleKey 5]
    (by decide)
  refine ⟨hsuccess.mpr ⟨⟨sampleBytes 1, by simp [sampleKey]⟩, ?_, ?_⟩, ?_⟩
  · simp [sampleKey, sampleGroup_createECPoint]
  · intro points hdecodes
    obtain ⟨rest, hrest, rfl⟩ := sampleKey_decodes hdecodes
    obtain ⟨rest', hrest', rfl⟩ := sampleKey_decodes hrest
    obtain ⟨rest'', hrest'', rfl⟩ := sampleKey_decodes hrest'
    cases hrest''
    decide
  · refine hparts [sampleKey 5] [sampleKey 3, sampleKey 4] (by simp) (by simp)
      (@List.perm_append_comm _ [sampleKey 5] [sampleKey 3, sampleKey 4]) ?_ ?_
    · intro points hdecodes
      obtain ⟨rest, hrest, rfl⟩ := sampleKey_decodes hdecodes
      cases hrest
      decide
    · intro points hdecodes
      obtain ⟨rest, hrest, rfl⟩ := sampleKey_decodes hdecodes
      obtain ⟨rest', hrest', rfl⟩ := sampleKey_decodes hrest
      cases hrest'
      decide

/-- Two keys with one generator whose elements decode, but to a point and its inverse. -/
theorem combineElGamalPublicKeys_inverses :
    sampleGroup.IsGroup sampleBytes ∧ sampleGroupLibrary.create 415 = .ok sampleGroup ∧
    (∀ key ∈ [sampleKey 3, sampleKey 248], key.generator = sampleBytes 1 ∧
      ∃ point, sampleGroup.createECPoint key.element = .ok point) ∧
    ∀ result, combineElGamalPublicKeys sampleGroupLibrary 415 [sampleKey 3, sampleKey 248]
      ≠ .ok result := by
  refine ⟨sampleGroup_isGroup, rfl, ?_, ?_⟩
  · simp [sampleKey, sampleGroup_createECPoint]
  · intro result hresult
    obtain ⟨_, ⟨-, points, hdecodes, rfl⟩, hnonzero, -⟩ := (@combineElGamalPublicKeys_eq_ok _ _
      sampleGroupLibrary sampleGroup sampleBytes sampleGroup_isGroup 415 rfl
      [sampleKey 3, sampleKey 248] (Nat.le_refl 2) result).mp hresult
    obtain ⟨rest, hrest, rfl⟩ := sampleKey_decodes hdecodes
    obtain ⟨rest', hrest', rfl⟩ := sampleKey_decodes hrest
    cases hrest'
    exact hnonzero (by decide)

end AnySketchCorrectness
