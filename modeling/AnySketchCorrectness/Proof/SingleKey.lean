import AnySketchCorrectness.Proof.ElGamalKeys

/-!
# Combining a single key

A list of one key is answered without looking at the key or the curve. The general code would check
both, and would write the element in compressed form. The two agree on the keys that already are
what the general code makes of them.
-/

namespace AnySketchCorrectness

variable {Point : Type} {library : EcGroupLibrary Point} {curveId : Int32}

/-- The element is the compressed form of a point of the curve. -/
def IsNormalized (library : EcGroupLibrary Point) (curveId : Int32) (element : ByteString) : Prop :=
  ∃ ecGroup point, library.create curveId = .ok ecGroup
    ∧ ecGroup.createECPoint element = .ok point ∧ ecGroup.toBytesCompressed point = .ok element

/-- The key carries a point that the curve has. -/
def CarriesPoint (library : EcGroupLibrary Point) (curveId : Int32) (key : ElGamalPublicKey) :
    Prop :=
  ∃ ecGroup point, library.create curveId = .ok ecGroup
    ∧ ecGroup.toBytesCompressed point = .ok key.element

theorem IsNormalized.carriesPoint {key : ElGamalPublicKey}
    (hnormalized : IsNormalized library curveId key.element) :
    CarriesPoint library curveId key := by
  obtain ⟨ecGroup, point, hcreate, -, hbytes⟩ := hnormalized
  exact ⟨ecGroup, point, hcreate, hbytes⟩

theorem combineElGamalPublicKeys_single (key : ElGamalPublicKey) :
    combineElGamalPublicKeys library curveId [key] = .ok key := rfl

theorem combineElGamalPublicKeys_many (first second : ElGamalPublicKey)
    (rest : List ElGamalPublicKey) :
    combineElGamalPublicKeys library curveId (first :: second :: rest)
      = combineKeys library curveId first (second :: rest) := rfl

/-- **The general code**, for any number of keys: it opens the curve, decodes the first element,
adds the others and writes the sum. -/
theorem combineKeys_eq_ok {first result : ElGamalPublicKey} {rest : List ElGamalPublicKey} :
    combineKeys library curveId first rest = .ok result
      ↔ ∃ ecGroup firstElementEc combinedElementEc, library.create curveId = .ok ecGroup
        ∧ ecGroup.createECPoint first.element = .ok firstElementEc
        ∧ rest.foldlM (combineElement library ecGroup first.generator) firstElementEc
          = .ok combinedElementEc
        ∧ ecGroup.toBytesCompressed combinedElementEc = .ok result.element
        ∧ first.generator = result.generator := by
  simp only [combineKeys, StatusOr.bind_eq_ok, assignOrReturnError_eq_ok]
  constructor
  · rintro ⟨ecGroup, hcreate, firstElementEc, hfirst, combinedElementEc, hfold, element, hbytes,
      hresult⟩
    cases hresult
    exact ⟨ecGroup, firstElementEc, combinedElementEc, hcreate, hfirst, hfold, hbytes, rfl⟩
  · rintro ⟨ecGroup, firstElementEc, combinedElementEc, hcreate, hfirst, hfold, hbytes,
      hgenerator⟩
    refine ⟨ecGroup, hcreate, firstElementEc, hfirst, combinedElementEc, hfold, result.element,
      hbytes, ?_⟩
    rw [hgenerator]
    rfl

theorem combineKeys_single_iff (key : ElGamalPublicKey) :
    combineKeys library curveId key [] = .ok key
      ↔ IsNormalized library curveId key.element := by
  rw [combineKeys_eq_ok]
  constructor
  · rintro ⟨ecGroup, point, combined, hcreate, hdecode, hfold, hbytes, -⟩
    rw [List.foldlM_nil] at hfold
    cases hfold
    exact ⟨ecGroup, point, hcreate, hdecode, hbytes⟩
  · rintro ⟨ecGroup, point, hcreate, hdecode, hbytes⟩
    exact ⟨ecGroup, point, point, hcreate, hdecode, List.foldlM_nil, hbytes, rfl⟩

/-- **When the shortcut for one key agrees with the general code**: exactly on the keys whose
element is the compressed form of a point of the curve. For lists without another single key, a
result always carries a point. -/
theorem combineElGamalPublicKeys_single_agrees_iff (library : EcGroupLibrary Point)
    (curveId : Int32) :
    (∀ key, (combineElGamalPublicKeys library curveId [key]).toOption
        = (combineKeys library curveId key []).toOption
      ↔ IsNormalized library curveId key.element) ∧
    ∀ keys result, (∀ single, keys = [single] → IsNormalized library curveId single.element) →
      combineElGamalPublicKeys library curveId keys = .ok result →
        CarriesPoint library curveId result := by
  constructor
  · intro key
    rw [combineElGamalPublicKeys_single, ← combineKeys_single_iff]
    constructor
    · intro hoption
      cases hgeneral : combineKeys library curveId key [] with
      | ok result =>
          rw [hgeneral] at hoption
          cases hoption
          rfl
      | error failure =>
          rw [hgeneral] at hoption
          cases hoption
    · intro hgeneral
      rw [hgeneral]
  · intro keys result hsingle hrun
    match keys, hsingle, hrun with
    | [key], hsingle, hrun =>
        have hkey : key = result := Except.ok.inj hrun
        rw [← hkey]
        exact (hsingle key rfl).carriesPoint
    | first :: second :: rest, _, hrun =>
        rw [combineElGamalPublicKeys_many] at hrun
        obtain ⟨ecGroup, _, combinedElementEc, hcreate, -, -, hbytes, -⟩ :=
          combineKeys_eq_ok.mp hrun
        exact ⟨ecGroup, combinedElementEc, hcreate, hbytes⟩

/-- The key of the repository's own test with invalid input. -/
def invalidKey : ElGamalPublicKey :=
  { generator := "foo".toUTF8.toList, element := "bar".toUTF8.toList }

theorem combineElGamalPublicKeys_single_invalid :
    combineElGamalPublicKeys sampleGroupLibrary 415 [invalidKey] = .ok invalidKey ∧
    combineKeys sampleGroupLibrary 415 invalidKey []
      = .error (.invalidArgument "Invalid ECPoint: bar") ∧
    (combineElGamalPublicKeys sampleGroupLibrary 415 [invalidKey]).toOption
      ≠ (combineKeys sampleGroupLibrary 415 invalidKey []).toOption := by
  have hgeneral : combineKeys sampleGroupLibrary 415 invalidKey []
      = .error (.invalidArgument "Invalid ECPoint: bar") := by
    decide +kernel
  refine ⟨rfl, hgeneral, ?_⟩
  rw [hgeneral]
  rintro ⟨⟩

end AnySketchCorrectness
