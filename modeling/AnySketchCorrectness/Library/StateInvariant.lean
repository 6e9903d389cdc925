import Mathlib.Init

/-!
# Invariants of programs with a state and an error exit

A program in `EStateM` ends with a value or an error, and with a state either way. `Keeps` says that
it preserves an invariant of the state on both exits and that a value it returns satisfies a
postcondition. The rules follow the constructions of a program: sequencing, branching on an error,
reading and writing the state, and folding over a list.
-/

namespace StateInvariant

variable {ε σ α β : Type}

/-- The state in which a run ends, on either exit. -/
def finalState : EStateM.Result ε σ α → σ
  | .ok _ s => s
  | .error _ s => s

/-- What a run answers, without the state it leaves behind. -/
def answer : EStateM.Result ε σ α → Except ε α
  | .ok a _ => .ok a
  | .error e _ => .error e

theorem answer_eq_ok_iff {result : EStateM.Result ε σ α} {a : α} :
    answer result = .ok a ↔ ∃ s, result = .ok a s := by
  cases result with
  | ok b s => simp [answer]
  | error e s => simp [answer]

def succeeds : EStateM.Result ε σ α → Bool
  | .ok _ _ => true
  | .error _ _ => false

theorem exists_ok_of_succeeds {result : EStateM.Result ε σ α}
    (hsucceeds : succeeds result = true) : ∃ a s, result = .ok a s := by
  cases result with
  | ok a s => exact ⟨a, s, rfl⟩
  | error e s => cases hsucceeds

theorem run_ofExcept_ok (a : α) (s : σ) :
    (MonadExcept.ofExcept (.ok a : Except ε α) : EStateM ε σ α).run s = .ok a s := rfl

theorem run_ofExcept_error (e : ε) (s : σ) :
    (MonadExcept.ofExcept (.error e : Except ε α) : EStateM ε σ α).run s = .error e s := rfl

theorem exists_of_run_bind_ok {program : EStateM ε σ α} {next : α → EStateM ε σ β} {s s' : σ}
    {b : β}
    (hrun : (program >>= next).run s = .ok b s') :
    ∃ a s'', program.run s = .ok a s'' ∧ (next a).run s'' = .ok b s' := by
  rw [EStateM.run_bind] at hrun
  cases hfirst : program.run s with
  | ok a s'' =>
      rw [hfirst] at hrun
      exact ⟨a, s'', rfl, hrun⟩
  | error e s'' =>
      rw [hfirst] at hrun
      cases hrun

theorem run_ofExcept_eq_ok {result : Except ε α} {s s' : σ} {a : α}
    (hrun : (MonadExcept.ofExcept result : EStateM ε σ α).run s = .ok a s') :
    result = .ok a ∧ s' = s := by
  cases result with
  | ok a' =>
      cases hrun
      exact ⟨rfl, rfl⟩
  | error e => cases hrun

def Keeps (I : σ → Prop) (program : EStateM ε σ α) (Q : α → Prop) : Prop :=
  ∀ s, I s → I (finalState (program.run s)) ∧
    ∀ a s', program.run s = .ok a s' → Q a

variable {I : σ → Prop} {Q : α → Prop}

theorem Keeps.finalState {program : EStateM ε σ α} (hkeeps : Keeps I program Q) {s : σ}
    (hinv : I s) : I (finalState (program.run s)) :=
  (hkeeps s hinv).1

theorem Keeps.result {program : EStateM ε σ α} (hkeeps : Keeps I program Q) {s s' : σ} {a : α}
    (hinv : I s) (hrun : program.run s = .ok a s') : I s' ∧ Q a := by
  obtain ⟨hfinal, hpost⟩ := hkeeps s hinv
  rw [hrun] at hfinal
  exact ⟨hfinal, hpost a s' hrun⟩

theorem keeps_pure {a : α} (hpost : Q a) : Keeps I (pure a : EStateM ε σ α) Q := by
  intro s hinv
  refine ⟨hinv, fun b s' hrun => ?_⟩
  cases hrun
  exact hpost

theorem keeps_throw (e : ε) : Keeps I (throw e : EStateM ε σ α) Q := by
  intro s hinv
  refine ⟨hinv, fun b s' hrun => ?_⟩
  cases hrun

theorem keeps_ofExcept {result : Except ε α} (hpost : ∀ a, result = .ok a → Q a) :
    Keeps I (MonadExcept.ofExcept result : EStateM ε σ α) Q := by
  cases result with
  | error e => exact keeps_throw e
  | ok a => exact keeps_pure (hpost a rfl)

theorem keeps_get : Keeps I (get : EStateM ε σ σ) I := by
  intro s hinv
  refine ⟨hinv, fun b s' hrun => ?_⟩
  cases hrun
  exact hinv

theorem keeps_set {s : σ} (hinv : I s) : Keeps I (set s : EStateM ε σ PUnit) fun _ => True := by
  intro s' _
  exact ⟨hinv, fun _ _ _ => trivial⟩

theorem keeps_modify {f : σ → σ} (hf : ∀ s, I s → I (f s)) :
    Keeps I (modify f : EStateM ε σ PUnit) fun _ => True := by
  intro s hinv
  exact ⟨hf s hinv, fun _ _ _ => trivial⟩

theorem keeps_modifyGet {f : σ → α × σ} (hf : ∀ s, I s → I (f s).2 ∧ Q (f s).1) :
    Keeps I (modifyGet f : EStateM ε σ α) Q := by
  intro s hinv
  obtain ⟨hinv', hpost⟩ := hf s hinv
  refine ⟨hinv', fun a s' hrun => ?_⟩
  cases hrun
  exact hpost

theorem keeps_bind {program : EStateM ε σ α} {next : α → EStateM ε σ β} {Q' : β → Prop}
    (hprogram : Keeps I program Q) (hnext : ∀ a, Q a → Keeps I (next a) Q') :
    Keeps I (program >>= next) Q' := by
  intro s hinv
  obtain ⟨hfinal, hpost⟩ := hprogram s hinv
  rw [EStateM.run_bind]
  cases hrun : program.run s with
  | ok a s' =>
      rw [hrun] at hfinal
      exact hnext a (hpost a s' hrun) s' hfinal
  | error e s' =>
      rw [hrun] at hfinal
      exact ⟨hfinal, fun b s'' hrun' => by cases hrun'⟩

theorem Keeps.mono {program : EStateM ε σ α} {Q' : α → Prop} (hkeeps : Keeps I program Q)
    (himp : ∀ a, Q a → Q' a) : Keeps I program Q' := by
  intro s hinv
  obtain ⟨hfinal, hpost⟩ := hkeeps s hinv
  exact ⟨hfinal, fun a s' hrun => himp a (hpost a s' hrun)⟩

/-- **The loop rule.** `A` relates the part of the list already processed to the accumulator; it
holds at the start and each step carries it over one more element. -/
theorem keeps_foldlM {γ : Type} {step : β → γ → EStateM ε σ β} {A : List γ → β → Prop}
    (hstep : ∀ done c b, A done b → Keeps I (step b c) (A (done ++ [c]))) :
    ∀ (todo done : List γ) (b : β), A done b →
      Keeps I (todo.foldlM step b) (A (done ++ todo)) := by
  intro todo
  induction todo with
  | nil =>
      intro done b hacc
      rw [List.foldlM_nil, List.append_nil]
      exact keeps_pure hacc
  | cons c todo ih =>
      intro done b hacc
      rw [List.foldlM_cons, List.append_cons]
      exact keeps_bind (hstep done c b hacc) fun b' hacc' => ih (done ++ [c]) b' hacc'

theorem keeps_mapM {γ : Type} {program : γ → EStateM ε σ α} (cs : List γ)
    (hprogram : ∀ c ∈ cs, Keeps I (program c) Q) :
    Keeps I (cs.mapM program) fun as => ∀ a ∈ as, Q a := by
  induction cs with
  | nil =>
      rw [List.mapM_nil]
      exact keeps_pure (List.forall_mem_nil Q)
  | cons c cs ih =>
      obtain ⟨hc, hcs⟩ := List.forall_mem_cons.mp hprogram
      rw [List.mapM_cons]
      exact keeps_bind hc fun a ha => keeps_bind (ih hcs) fun as has =>
        keeps_pure (List.forall_mem_cons.mpr ⟨ha, has⟩)

/-! ### When a program succeeds -/

/-- The program keeps the invariant, and succeeds only if `P`. If what it calls is reliable, it
fails only if not `P`, and never with the excluded error. -/
def Accepts (I : σ → Prop) (reliable : Prop) (excluded : ε) (program : EStateM ε σ α) (P : Prop)
    (Q : α → Prop) : Prop :=
  ∀ s, I s → match program.run s with
    | .ok a s' => I s' ∧ P ∧ Q a
    | .error e s' => I s' ∧ (reliable → ¬ P ∧ e ≠ excluded)

section Accepts

variable {reliable P P' : Prop} {excluded : ε}

theorem Accepts.finalState {program : EStateM ε σ α}
    (haccepts : Accepts I reliable excluded program P Q) {s : σ} (hinv : I s) :
    I (finalState (program.run s)) := by
  have hrun := haccepts s hinv
  revert hrun
  cases program.run s with
  | ok a s' => exact And.left
  | error e s' => exact And.left

theorem Accepts.keeps {program : EStateM ε σ α}
    (haccepts : Accepts I reliable excluded program P Q) : Keeps I program Q := by
  intro s hinv
  refine ⟨haccepts.finalState hinv, fun a s' hrun => ?_⟩
  have hok := haccepts s hinv
  rw [hrun] at hok
  exact hok.2.2

theorem Accepts.of_ok {program : EStateM ε σ α}
    (haccepts : Accepts I reliable excluded program P Q) {s s' : σ} {a : α} (hinv : I s)
    (hrun : program.run s = .ok a s') : P := by
  have hok := haccepts s hinv
  rw [hrun] at hok
  exact hok.2.1

theorem Accepts.ok_iff {program : EStateM ε σ α}
    (haccepts : Accepts I reliable excluded program P Q) (hreliable : reliable) {s : σ}
    (hinv : I s) : (∃ a s', program.run s = .ok a s') ↔ P := by
  constructor
  · rintro ⟨a, s', hrun⟩
    exact haccepts.of_ok hinv hrun
  · intro hP
    have hcases := haccepts s hinv
    cases hrun : program.run s with
    | ok a s' => exact ⟨a, s', rfl⟩
    | error e s' =>
        rw [hrun] at hcases
        exact absurd hP (hcases.2 hreliable).1

theorem Accepts.error_ne {program : EStateM ε σ α}
    (haccepts : Accepts I reliable excluded program P Q) (hreliable : reliable) {s s' : σ} {e : ε}
    (hinv : I s) (hrun : program.run s = .error e s') : e ≠ excluded := by
  have herror := haccepts s hinv
  rw [hrun] at herror
  exact (herror.2 hreliable).2

theorem Accepts.of_iff {program : EStateM ε σ α} (hiff : P ↔ P')
    (haccepts : Accepts I reliable excluded program P Q) :
    Accepts I reliable excluded program P' Q :=
  propext hiff ▸ haccepts

theorem accepts_pure {a : α} (hP : P) (hpost : Q a) :
    Accepts I reliable excluded (pure a : EStateM ε σ α) P Q :=
  fun _ hinv => ⟨hinv, hP, hpost⟩

theorem accepts_throw {e : ε} (hP : ¬ P) (hne : e ≠ excluded) :
    Accepts I reliable excluded (throw e : EStateM ε σ α) P Q :=
  fun _ hinv => ⟨hinv, fun _ => ⟨hP, hne⟩⟩

theorem accepts_ofExcept {result : Except ε α} (hok : ∀ a, result = .ok a → P ∧ Q a)
    (herror : ∀ e, result = .error e → reliable → ¬ P ∧ e ≠ excluded) :
    Accepts I reliable excluded (MonadExcept.ofExcept result : EStateM ε σ α) P Q := by
  cases result with
  | ok a => exact fun _ hinv => ⟨hinv, hok a rfl⟩
  | error e => exact fun _ hinv => ⟨hinv, herror e rfl⟩

theorem accepts_get : Accepts I reliable excluded (get : EStateM ε σ σ) True I :=
  fun _ hinv => ⟨hinv, trivial, hinv⟩

theorem accepts_set {s : σ} (hinv : I s) :
    Accepts I reliable excluded (set s : EStateM ε σ PUnit) True fun _ => True :=
  fun _ _ => ⟨hinv, trivial, trivial⟩

theorem accepts_modify {f : σ → σ} (hf : ∀ s, I s → I (f s)) :
    Accepts I reliable excluded (modify f : EStateM ε σ PUnit) True fun _ => True :=
  fun s hinv => ⟨hf s hinv, trivial, trivial⟩

theorem accepts_bind {program : EStateM ε σ α} {next : α → EStateM ε σ β} {Q' : β → Prop}
    (hprogram : Accepts I reliable excluded program P Q)
    (hnext : ∀ a, Q a → Accepts I reliable excluded (next a) P' Q') :
    Accepts I reliable excluded (program >>= next) (P ∧ P') Q' := by
  intro s hinv
  have hfirst := hprogram s hinv
  rw [EStateM.run_bind]
  cases hrun : program.run s with
  | ok a s' =>
      rw [hrun] at hfirst
      obtain ⟨hinv', hP, hpost⟩ := hfirst
      have hsecond := hnext a hpost s' hinv'
      cases hrun' : (next a).run s' with
      | ok b s'' =>
          rw [hrun'] at hsecond
          obtain ⟨hinv'', hP', hpost'⟩ := hsecond
          simp only [hrun']
          exact ⟨hinv'', ⟨hP, hP'⟩, hpost'⟩
      | error e s'' =>
          rw [hrun'] at hsecond
          obtain ⟨hinv'', herror⟩ := hsecond
          simp only [hrun']
          exact ⟨hinv'', fun hreliable =>
            ⟨fun hboth => (herror hreliable).1 hboth.2, (herror hreliable).2⟩⟩
  | error e s' =>
      rw [hrun] at hfirst
      obtain ⟨hinv', herror⟩ := hfirst
      exact ⟨hinv', fun hreliable =>
        ⟨fun hboth => (herror hreliable).1 hboth.1, (herror hreliable).2⟩⟩

/-- A fold succeeds if every step does. -/
theorem accepts_foldlM {γ : Type} {step : β → γ → EStateM ε σ β} {A : β → Prop} {R : γ → Prop}
    {todo : List γ}
    (hstep : ∀ b, ∀ c ∈ todo, A b → Accepts I reliable excluded (step b c) (R c) A) {b : β}
    (hacc : A b) : Accepts I reliable excluded (todo.foldlM step b) (∀ c ∈ todo, R c) A := by
  induction todo generalizing b with
  | nil =>
      rw [List.foldlM_nil]
      exact accepts_pure (fun c hmem => absurd hmem List.not_mem_nil) hacc
  | cons c todo ih =>
      have ih := fun {b} => ih (b := b) fun b c hmem => hstep b c (List.mem_cons_of_mem _ hmem)
      rw [List.foldlM_cons]
      refine (accepts_bind (hstep b c List.mem_cons_self hacc) fun b' hacc' => ih hacc').of_iff ?_
      exact List.forall_mem_cons.symm

end Accepts

end StateInvariant
