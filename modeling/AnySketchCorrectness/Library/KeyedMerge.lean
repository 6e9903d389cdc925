import Mathlib.Data.List.AList
import Mathlib.Data.List.Perm.Basic

/-!
# Tables joined key by key

A table gives some keys a value. Two tables are joined key by key: a key that both of them have gets
the two values combined by `op`, a key that only one has keeps its value. When `op` is commutative
and associative so is the join, with the empty table as its unit, and a table built by joining
entries one at a time depends only on which entries were joined, not on the order or the grouping.
-/

namespace KeyedMerge

variable {K V : Type*}

abbrev Table (K V : Type*) := K → Option V

def empty : Table K V := fun _ => none

def point [DecidableEq K] (key : K) (value : V) : Table K V :=
  fun k => if k = key then some value else none

/-- Both tables' entries, combined by `op` at the keys they share. -/
def join (op : V → V → V) (left right : Table K V) : Table K V :=
  fun k => (left k).merge op (right k)

@[simp]
theorem point_self [DecidableEq K] (key : K) (value : V) : point key value key = some value := by
  simp [point]

theorem point_of_ne [DecidableEq K] {k key : K} (hne : k ≠ key) (value : V) :
    point key value k = none := by
  simp [point, hne]

section Join

variable (op : V → V → V)

@[simp]
theorem join_empty_left (table : Table K V) : join op empty table = table := by
  funext k
  simp [join, empty]

@[simp]
theorem join_empty_right (table : Table K V) : join op table empty = table := by
  funext k
  simp [join, empty]

theorem join_assoc [Std.Associative op] (a b c : Table K V) :
    join op (join op a b) c = join op a (join op b c) := by
  funext k
  exact (Option.associative_merge op).assoc (a k) (b k) (c k)

theorem join_comm [Std.Commutative op] (a b : Table K V) : join op a b = join op b a := by
  funext k
  exact (Option.commutative_merge op).comm (a k) (b k)

theorem join_left_comm [Std.Associative op] [Std.Commutative op] (a b c : Table K V) :
    join op a (join op b c) = join op b (join op a c) := by
  rw [← join_assoc, join_comm op a b, join_assoc]

end Join

/-- Where the value of a joined table comes from. -/
theorem join_cases {op : V → V → V} {left right : Table K V} {k : K} {v : V}
    (hjoin : join op left right k = some v) :
    (left k = none ∧ right k = some v) ∨ (left k = some v ∧ right k = none)
      ∨ ∃ a b, left k = some a ∧ right k = some b ∧ op a b = v := by
  rw [join] at hjoin
  cases hleft : left k with
  | none =>
      rw [hleft, Option.merge_none_left] at hjoin
      exact Or.inl ⟨rfl, hjoin⟩
  | some a =>
      cases hright : right k with
      | none =>
          rw [hleft, hright, Option.merge_none_right] at hjoin
          exact Or.inr (Or.inl ⟨hjoin, rfl⟩)
      | some b =>
          rw [hleft, hright, Option.merge_some_some] at hjoin
          exact Or.inr (Or.inr ⟨a, b, rfl, rfl, Option.some.inj hjoin⟩)

/-- If `op` never leaves `P` through its right argument, only the keys that the left table lacks can
bring a value outside of `P` into the join. -/
theorem forall_join_iff {op : V → V → V} {P : V → Prop} (hop : ∀ a b, P a → P (op a b))
    {left right : Table K V} (hleft : ∀ k v, left k = some v → P v) :
    (∀ k v, join op left right k = some v → P v)
      ↔ ∀ k v, right k = some v → left k = none → P v := by
  constructor
  · intro hjoin k v hright hmissing
    refine hjoin k v ?_
    rw [join, hmissing, hright, Option.merge_none_left]
  · intro hright k v hjoin
    rcases join_cases hjoin with ⟨hmissing, hv⟩ | ⟨hv, -⟩ | ⟨a, b, ha, -, rfl⟩
    · exact hright k v hv hmissing
    · exact hleft k v hv
    · exact hop a b (hleft k a ha)

def combine (op : V → V → V) : List V → Option V
  | [] => none
  | value :: values => (some value).merge op (combine op values)

theorem combine_eq_none {op : V → V → V} {values : List V} :
    combine op values = none ↔ values = [] := by
  cases values <;> simp [combine]

/-- A property that holds of every value and that `op` preserves holds of the combination. -/
theorem combine_induction {op : V → V → V} {P : V → Prop} (hop : ∀ a b, P a → P b → P (op a b)) :
    ∀ {values : List V} {result : V}, (∀ value ∈ values, P value) →
      combine op values = some result → P result := by
  intro values
  induction values with
  | nil =>
      intro result _ hresult
      simp [combine] at hresult
  | cons value values ih =>
      intro result hvalues hresult
      have hvalue : P value := hvalues value List.mem_cons_self
      cases hrest : combine op values with
      | none =>
          rw [combine, hrest, Option.merge_none_right] at hresult
          exact Option.some.inj hresult ▸ hvalue
      | some rest =>
          rw [combine, hrest, Option.merge_some_some] at hresult
          have hrest' : P rest :=
            ih (fun v hv => hvalues v (List.mem_cons_of_mem _ hv)) hrest
          exact Option.some.inj hresult ▸ hop value rest hvalue hrest'

section Tally

variable [DecidableEq K] (op : V → V → V)

def tally (entries : List (K × V)) : Table K V :=
  entries.foldr (fun entry table => join op (point entry.1 entry.2) table) empty

@[simp]
theorem tally_nil : tally op ([] : List (K × V)) = empty := rfl

theorem tally_cons (entry : K × V) (entries : List (K × V)) :
    tally op (entry :: entries) = join op (point entry.1 entry.2) (tally op entries) := rfl

theorem tally_append [Std.Associative op] (left right : List (K × V)) :
    tally op (left ++ right) = join op (tally op left) (tally op right) := by
  induction left with
  | nil => simp
  | cons entry left ih => rw [List.cons_append, tally_cons, tally_cons, ih, join_assoc]

/-- **The order of the entries does not matter.** -/
theorem tally_perm [Std.Associative op] [Std.Commutative op] {left right : List (K × V)}
    (hperm : left.Perm right) : tally op left = tally op right := by
  have hcomm : LeftCommutative
      (fun (entry : K × V) (table : Table K V) => join op (point entry.1 entry.2) table) :=
    ⟨fun _ _ _ => join_left_comm op _ _ _⟩
  exact hperm.foldr_eq empty

/-- Joining an entry again changes nothing, if `op` leaves its value alone. -/
theorem join_point_tally [Std.Associative op] [Std.Commutative op] {entry : K × V}
    {entries : List (K × V)} (hmem : entry ∈ entries) (hself : op entry.2 entry.2 = entry.2) :
    join op (point entry.1 entry.2) (tally op entries) = tally op entries := by
  induction entries with
  | nil => cases hmem
  | cons head entries ih =>
      rw [tally_cons]
      rcases List.mem_cons.mp hmem with rfl | hmem
      · have hpoint : join op (point entry.1 entry.2) (point entry.1 entry.2)
            = (point entry.1 entry.2 : Table K V) := by
          funext k
          by_cases hkey : k = entry.1
          · subst hkey
            rw [join, point_self, Option.merge_some_some, hself]
          · rw [join, point_of_ne hkey, Option.merge_none_left]
        rw [← join_assoc, hpoint]
      · rw [join_left_comm, ih hmem]

/-- **For an idempotent operation the entries count once.** -/
theorem tally_eq_of_mem_iff [Std.Associative op] [Std.Commutative op] {left right : List (K × V)}
    (hself : ∀ entry ∈ left, op entry.2 entry.2 = entry.2)
    (hmem : ∀ entry, entry ∈ left ↔ entry ∈ right) : tally op left = tally op right := by
  have habsorb : ∀ l r : List (K × V), (∀ entry ∈ l, op entry.2 entry.2 = entry.2) →
      (∀ entry ∈ l, entry ∈ r) → tally op (l ++ r) = tally op r := by
    intro l r
    induction l with
    | nil => exact fun _ _ => rfl
    | cons entry l ih =>
        intro hselfs hsubset
        obtain ⟨hentry, hselfs⟩ := List.forall_mem_cons.mp hselfs
        obtain ⟨hentryMem, hsubset⟩ := List.forall_mem_cons.mp hsubset
        rw [List.cons_append, tally_cons, ih hselfs hsubset, join_point_tally op hentryMem hentry]
  have hself' : ∀ entry ∈ right, op entry.2 entry.2 = entry.2 :=
    fun entry hentry => hself entry ((hmem entry).mpr hentry)
  calc tally op left
      = tally op (right ++ left) :=
        (habsorb right left hself' fun entry => (hmem entry).mpr).symm
    _ = tally op (left ++ right) := tally_perm op List.perm_append_comm
    _ = tally op right := habsorb left right hself fun entry => (hmem entry).mp

theorem tally_apply (entries : List (K × V)) (k : K) :
    tally op entries k
      = combine op ((entries.filter fun entry => entry.1 = k).map Prod.snd) := by
  induction entries with
  | nil => rfl
  | cons entry entries ih =>
      rw [tally_cons, join, ih]
      by_cases hkey : entry.1 = k
      · simp [hkey, combine]
      · simp [hkey, point_of_ne (Ne.symm hkey)]

theorem tally_isSome {entries : List (K × V)} {k : K} :
    (tally op entries k).isSome ↔ ∃ entry ∈ entries, entry.1 = k := by
  rw [tally_apply, Option.isSome_iff_ne_none, Ne, combine_eq_none]
  simp

theorem tally_entries (entries : List (Σ _ : K, V)) (hnodup : entries.NodupKeys) :
    tally op (entries.map fun entry => (entry.1, entry.2)) = fun k => entries.dlookup k := by
  induction entries with
  | nil => rfl
  | cons entry entries ih =>
      obtain ⟨key, value⟩ := entry
      rw [List.nodupKeys_cons] at hnodup
      rw [List.map_cons, tally_cons, ih hnodup.2]
      funext k
      by_cases hkey : k = key
      · subst hkey
        have hfresh : entries.dlookup k = none := List.dlookup_eq_none.mpr hnodup.1
        simp [join, hfresh]
      · simp [join, point_of_ne hkey, List.dlookup_cons_ne entries ⟨key, value⟩ hkey]

end Tally

end KeyedMerge
