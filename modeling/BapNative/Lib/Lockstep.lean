import Mathlib.Data.Sum.Basic
import Mathlib.Logic.Relation
import Mathlib.Data.Nat.Notation

/-!
# Machines in lockstep

A machine is a step on its states, which may be undefined, or end with a result.  Where two
machines are both defined in related states and a step of each leads to related states or to
related results, so does a run of each, however many steps it may take: neither is undefined,
and one ends if and only if the other does.
-/

namespace BapNative.Lockstep

variable {S S' R R' : Type*}

/-- A run of at most so many steps: where it is after them, or what it ended with. -/
def run (step : S → Option (S ⊕ R)) : ℕ → S → Option (S ⊕ R)
  | 0, s => some (.inl s)
  | fuel + 1, s =>
    match step s with
    | none => none
    | some (.inl s) => run step fuel s
    | some (.inr result) => some (.inr result)

/-- A run that has ended is over, however many steps it may take. -/
lemma run_add_inr {step : S → Option (S ⊕ R)} {fuel : ℕ} {s : S} {result : R}
    (h : run step fuel s = some (.inr result)) (more : ℕ) :
    run step (fuel + more) s = some (.inr result) := by
  induction fuel generalizing s with
  | zero => simp [run] at h
  | succ fuel ih =>
    rw [Nat.succ_add]
    rw [run] at h ⊢
    split at h
    · simp at h
    · exact ih h
    · exact h

/-- **What every step preserves, and has so of a result, is so wherever a run gets.** -/
theorem run_invariant {step : S → Option (S ⊕ R)} {I : S → Prop} {J : R → Prop}
    (hstep : ∀ s x, I s → step s = some x → Sum.elim I J x) {fuel : ℕ} {s : S} {x : S ⊕ R}
    (h : I s) (hrun : run step fuel s = some x) : Sum.elim I J x := by
  induction fuel generalizing s with
  | zero =>
    obtain rfl := Option.some.inj hrun
    exact h
  | succ fuel ih =>
    rw [run] at hrun
    cases hnext : step s with
    | none => simp [hnext] at hrun
    | some y =>
      have hy := hstep s y h hnext
      cases y with
      | inl s' =>
        simp only [hnext] at hrun
        exact ih hy hrun
      | inr result =>
        simp only [hnext] at hrun
        obtain rfl := Option.some.inj hrun
        exact hy

/-- **Where no step is undefined, from what every step preserves, no run is.** -/
theorem run_total {step : S → Option (S ⊕ R)} {I : S → Prop} {J : R → Prop}
    (hstep : ∀ s, I s → ∃ x, step s = some x ∧ Sum.elim I J x) (fuel : ℕ) {s : S} (h : I s) :
    ∃ x, run step fuel s = some x ∧ Sum.elim I J x := by
  induction fuel generalizing s with
  | zero => exact ⟨_, rfl, h⟩
  | succ fuel ih =>
    obtain ⟨x, hx, hnext⟩ := hstep s h
    rw [run, hx]
    cases x with
    | inl next => exact ih hnext
    | inr result => exact ⟨_, rfl, hnext⟩

/-- Both are defined, and are related states or related results. -/
def Both (P : S → S' → Prop) (Q : R → R' → Prop) (a : Option (S ⊕ R)) (b : Option (S' ⊕ R')) :
    Prop :=
  ∃ x y, a = some x ∧ b = some y ∧ Sum.LiftRel P Q x y

variable {P : S → S' → Prop} {Q : R → R' → Prop}

lemma both_inl {s : S} {s' : S'} (h : P s s') :
    Both P Q (some (.inl s)) (some (.inl s')) := ⟨_, _, rfl, rfl, .inl h⟩

lemma both_inr {r : R} {r' : R'} (h : Q r r') :
    Both P Q (some (.inr r)) (some (.inr r')) := ⟨_, _, rfl, rfl, .inr h⟩

lemma Both.mono {P' : S → S' → Prop} {Q' : R → R' → Prop} {a : Option (S ⊕ R)}
    {b : Option (S' ⊕ R')} (h : Both P Q a b) (hP : ∀ s s', P s s' → P' s s')
    (hQ : ∀ r r', Q r r' → Q' r r') : Both P' Q' a b := by
  obtain ⟨x, y, hx, hy, hrel⟩ := h
  exact ⟨x, y, hx, hy, hrel.mono hP hQ⟩

lemma Both.symm {a : Option (S ⊕ R)} {b : Option (S' ⊕ R')} (h : Both P Q a b) :
    Both (flip P) (flip Q) b a := by
  obtain ⟨x, y, hx, hy, hrel⟩ := h
  refine ⟨y, x, hy, hx, ?_⟩
  cases hrel with
  | inl hnext => exact .inl hnext
  | inr hresult => exact .inr hresult

/-- A machine in lockstep with two others has these in lockstep. -/
lemma Both.comp {S'' R'' : Type*} {P' : S' → S'' → Prop} {Q' : R' → R'' → Prop}
    {a : Option (S ⊕ R)} {b : Option (S' ⊕ R')} {c : Option (S'' ⊕ R'')} (h : Both P Q a b)
    (h' : Both P' Q' b c) : Both (Relation.Comp P P') (Relation.Comp Q Q') a c := by
  obtain ⟨x, y, hx, rfl, hrel⟩ := h
  obtain ⟨y', z, hy, hz, hrel'⟩ := h'
  obtain rfl := Option.some.inj hy
  refine ⟨x, z, hx, hz, ?_⟩
  cases hrel with
  | inl hnext =>
    cases hrel' with
    | inl hnext' => exact .inl ⟨_, hnext, hnext'⟩
  | inr hresult =>
    cases hrel' with
    | inr hresult' => exact .inr ⟨_, hresult, hresult'⟩

/-- **Machines that step together run together.** -/
theorem both_run {step : S → Option (S ⊕ R)} {step' : S' → Option (S' ⊕ R')}
    (hstep : ∀ s s', P s s' → Both P Q (step s) (step' s')) (fuel : ℕ) {s : S} {s' : S'}
    (h : P s s') : Both P Q (run step fuel s) (run step' fuel s') := by
  induction fuel generalizing s s' with
  | zero => exact both_inl h
  | succ fuel ih =>
    obtain ⟨x, y, hx, hy, hrel⟩ := hstep s s' h
    cases hrel with
    | inl hnext =>
      simp only [run, hx, hy]
      exact ih hnext
    | inr hresult =>
      simp only [run, hx, hy]
      exact both_inr hresult

/-- Both are undefined, or what comes after each is related. -/
lemma rel_bind {A B A' B' : Type*} {r : A → B → Prop} {r' : A' → B' → Prop} {a : Option A}
    {b : Option B} {f : A → Option A'} {g : B → Option B'} (h : Option.Rel r a b)
    (hnext : ∀ x y, r x y → Option.Rel r' (f x) (g y)) : Option.Rel r' (a.bind f) (b.bind g) := by
  cases h with
  | none => exact .none
  | some hrel => exact hnext _ _ hrel

lemma rel_map {A B A' B' : Type*} {r : A → B → Prop} {r' : A' → B' → Prop} {a : Option A}
    {b : Option B} {f : A → A'} {g : B → B'} (h : Option.Rel r a b)
    (hnext : ∀ x y, r x y → r' (f x) (g y)) : Option.Rel r' (a.map f) (b.map g) := by
  cases h with
  | none => exact .none
  | some hrel => exact .some (hnext _ _ hrel)

/-- **Machines of which one step is undefined where one of the other is are so of whole runs.** -/
theorem rel_run {step : S → Option (S ⊕ R)} {step' : S' → Option (S' ⊕ R')}
    (hstep : ∀ s s', P s s' → Option.Rel (Sum.LiftRel P Q) (step s) (step' s')) (fuel : ℕ) {s : S}
    {s' : S'} (h : P s s') :
    Option.Rel (Sum.LiftRel P Q) (run step fuel s) (run step' fuel s') := by
  induction fuel generalizing s s' with
  | zero => exact .some (.inl h)
  | succ fuel ih =>
    have hrel := hstep s s' h
    rw [run, run]
    revert hrel
    generalize step s = a
    generalize step' s' = b
    rintro (hrel | -)
    · cases hrel with
      | inl hnext => exact ih hnext
      | inr hresult => exact .some (.inr hresult)
    · exact .none

/-- **Where one machine is defined, another that steps as it does runs as it does.** -/
theorem liftRel_run {step : S → Option (S ⊕ R)} {step' : S' → Option (S' ⊕ R')}
    (hstep : ∀ s s' x, P s s' → step s = some x →
      ∃ y, step' s' = some y ∧ Sum.LiftRel P Q x y) {fuel : ℕ} {s : S} {s' : S'} {x : S ⊕ R}
    (h : P s s') (hrun : run step fuel s = some x) :
    ∃ y, run step' fuel s' = some y ∧ Sum.LiftRel P Q x y := by
  induction fuel generalizing s s' with
  | zero =>
    obtain rfl := Option.some.inj hrun
    exact ⟨.inl s', rfl, .inl h⟩
  | succ fuel ih =>
    rw [run] at hrun
    cases hnext : step s with
    | none => simp [hnext] at hrun
    | some z =>
      obtain ⟨y, hy, hrel⟩ := hstep s s' z h hnext
      cases hrel with
      | inl hnext' =>
        simp only [hnext] at hrun
        simp only [run, hy]
        exact ih hnext' hrun
      | inr hresult =>
        simp only [hnext] at hrun
        obtain rfl := Option.some.inj hrun
        simp only [run, hy]
        exact ⟨_, rfl, .inr hresult⟩

/-- Where the first machine ended, the second did. -/
lemma Both.exists_inr {r : R} {b : Option (S' ⊕ R')} (h : Both P Q (some (.inr r)) b) :
    ∃ r', b = some (.inr r') ∧ Q r r' := by
  obtain ⟨x, y, hx, rfl, hrel⟩ := h
  obtain rfl := Option.some.inj hx
  cases hrel with
  | inr hresult => exact ⟨_, rfl, hresult⟩

lemma Both.exists_inl {s : S} {b : Option (S' ⊕ R')} (h : Both P Q (some (.inl s)) b) :
    ∃ s', b = some (.inl s') ∧ P s s' := by
  obtain ⟨x, y, hx, rfl, hrel⟩ := h
  obtain rfl := Option.some.inj hx
  cases hrel with
  | inl hnext => exact ⟨_, rfl, hnext⟩

/-! ## Machines that fall behind -/

/-- A machine returns a result, after however many steps. -/
def Returns (step : S → Option (S ⊕ R)) (s : S) (result : R) : Prop :=
  ∃ fuel, run step fuel s = some (.inr result)

/-- A machine is defined wherever it gets. -/
def Safe (step : S → Option (S ⊕ R)) (s : S) : Prop := ∀ fuel, (run step fuel s).isSome

/-- A step of the first machine that is none of the second, of which there are only so many
together, or a step of each. -/
def Follows (step : S → Option (S ⊕ R)) (step' : S' → Option (S' ⊕ R')) (P : S → S' → Prop)
    (Q : R → R' → Prop) (rank : S → ℕ) (s : S) (s' : S') : Prop :=
  (∃ t, step s = some (.inl t) ∧ P t s' ∧ rank t < rank s) ∨
    ∀ y, step' s' = some y → ∃ x, step s = some x ∧ Sum.LiftRel P Q x y

variable {step : S → Option (S ⊕ R)} {step' : S' → Option (S' ⊕ R')} {rank : S → ℕ}

lemma returns_of_step {s t : S} {result : R} (hstep : step s = some (.inl t))
    (h : Returns step t result) : Returns step s result := by
  obtain ⟨fuel, hrun⟩ := h
  exact ⟨fuel + 1, by rw [run, hstep]; exact hrun⟩

/-- A machine that is defined wherever it gets is so at its first step, and from there on. -/
lemma Safe.next {s : S} (h : Safe step s) :
    ∃ x, step s = some x ∧ ∀ t, x = .inl t → Safe step t := by
  have hone := h 1
  cases hstep : step s with
  | none => simp [run, hstep] at hone
  | some x =>
    refine ⟨x, rfl, ?_⟩
    rintro t rfl fuel
    simpa [run, hstep] using h (fuel + 1)

/-- **Where one machine returns, another that follows it returns.** -/
theorem returns_of_follows (hfollows : ∀ s s', P s s' → Follows step step' P Q rank s s')
    {s : S} {s' : S'} {result' : R'} (h : P s s') (hreturns : Returns step' s' result') :
    ∃ result, Returns step s result ∧ Q result result' := by
  obtain ⟨fuel, hrun⟩ := hreturns
  -- by the steps of the second, and among those by what the first may do without it
  induction fuel generalizing s s' with
  | zero => simp [run] at hrun
  | succ fuel ih =>
    induction hrank : rank s using Nat.strongRecOn generalizing s with
    | ind _ ihrank =>
      rcases hfollows s s' h with ⟨t, hstep, ht, hlt⟩ | hboth
      · obtain ⟨result, hresult, hQ⟩ := ihrank (rank t) (hrank ▸ hlt) ht rfl
        exact ⟨result, returns_of_step hstep hresult, hQ⟩
      · rw [run] at hrun
        cases hnext : step' s' with
        | none => simp [hnext] at hrun
        | some y =>
          obtain ⟨x, hx, hrel⟩ := hboth y hnext
          cases hrel with
          | inl hP =>
            simp only [hnext] at hrun
            obtain ⟨result, hresult, hQ⟩ := ih hP hrun
            exact ⟨result, returns_of_step hx hresult, hQ⟩
          | inr hQ =>
            simp only [hnext] at hrun
            obtain rfl : _ = result' := by simpa using hrun
            exact ⟨_, ⟨1, by rw [run, hx]⟩, hQ⟩

/-- **A machine that follows one that is defined wherever it gets is so too.** -/
theorem safe_of_follows (hfollows : ∀ s s', P s s' → Follows step step' P Q rank s s')
    {s : S} {s' : S'} (h : P s s') (hsafe : Safe step' s') : Safe step s := by
  intro fuel
  induction fuel generalizing s s' with
  | zero => rfl
  | succ fuel ih =>
    rcases hfollows s s' h with ⟨t, hstep, ht, -⟩ | hboth
    · rw [run, hstep]
      exact ih ht hsafe
    · obtain ⟨y, hy, hrest⟩ := hsafe.next
      obtain ⟨x, hx, hrel⟩ := hboth y hy
      rw [run, hx]
      cases hrel with
      | inl hP => exact ih hP (hrest _ rfl)
      | inr hQ => rfl

/-- **Where it returns, so does the one that it follows.** -/
theorem returns_of_followed (hfollows : ∀ s s', P s s' → Follows step step' P Q rank s s')
    {s : S} {s' : S'} {result : R} (h : P s s') (hsafe : Safe step' s')
    (hreturns : Returns step s result) :
    ∃ result', Returns step' s' result' ∧ Q result result' := by
  obtain ⟨fuel, hrun⟩ := hreturns
  induction fuel generalizing s s' with
  | zero => simp [run] at hrun
  | succ fuel ih =>
    rcases hfollows s s' h with ⟨t, hstep, ht, -⟩ | hboth
    · rw [run, hstep] at hrun
      exact ih ht hsafe hrun
    · obtain ⟨y, hy, hrest⟩ := hsafe.next
      obtain ⟨x, hx, hrel⟩ := hboth y hy
      rw [run, hx] at hrun
      cases hrel with
      | inl hP =>
        obtain ⟨result', hresult, hQ⟩ := ih hP (hrest _ rfl) hrun
        exact ⟨result', returns_of_step hy hresult, hQ⟩
      | inr hQ =>
        obtain rfl : _ = result := by simpa using hrun
        exact ⟨_, ⟨1, by rw [run, hy]⟩, hQ⟩

/-! ## Machines that return alike -/

/-- Both are defined wherever they get, and each returns if and only if the other does, with
related results. -/
structure Alike (step : S → Option (S ⊕ R)) (step' : S' → Option (S' ⊕ R')) (Q : R → R' → Prop)
    (s : S) (s' : S') : Prop where
  safe : Safe step s
  safe' : Safe step' s'
  forth : ∀ result, Returns step s result → ∃ result', Returns step' s' result' ∧ Q result result'
  back : ∀ result', Returns step' s' result' → ∃ result, Returns step s result ∧ Q result result'

lemma Alike.mono {Q' : R → R' → Prop} {s : S} {s' : S'} (h : Alike step step' Q s s')
    (hQ : ∀ r r', Q r r' → Q' r r') : Alike step step' Q' s s' := by
  refine ⟨h.safe, h.safe', fun result hreturns => ?_, fun result' hreturns => ?_⟩
  · obtain ⟨result', hreturns', hresult⟩ := h.forth result hreturns
    exact ⟨result', hreturns', hQ _ _ hresult⟩
  · obtain ⟨result, hreturns', hresult⟩ := h.back result' hreturns
    exact ⟨result, hreturns', hQ _ _ hresult⟩

lemma Alike.comp {S'' R'' : Type*} {step'' : S'' → Option (S'' ⊕ R'')} {Q' : R' → R'' → Prop}
    {s : S} {s' : S'} {s'' : S''} (h : Alike step step' Q s s')
    (h' : Alike step' step'' Q' s' s'') : Alike step step'' (Relation.Comp Q Q') s s'' := by
  refine ⟨h.safe, h'.safe', fun result hreturns => ?_, fun result' hreturns => ?_⟩
  · obtain ⟨middle, hmiddle, hQ⟩ := h.forth result hreturns
    obtain ⟨result', hresult, hQ'⟩ := h'.forth middle hmiddle
    exact ⟨result', hresult, middle, hQ, hQ'⟩
  · obtain ⟨middle, hmiddle, hQ'⟩ := h'.back result' hreturns
    obtain ⟨result, hresult, hQ⟩ := h.back middle hmiddle
    exact ⟨result, hresult, middle, hQ, hQ'⟩

/-- A machine returns as another does if it does after a step. -/
lemma Alike.of_step {s t : S} {s' : S'} (hstep : step s = some (.inl t))
    (h : Alike step step' Q t s') : Alike step step' Q s s' := by
  refine ⟨fun fuel => ?_, h.safe', fun result hreturns => ?_, fun result' hreturns => ?_⟩
  · cases fuel with
    | zero => rfl
    | succ fuel =>
      rw [run, hstep]
      exact h.safe fuel
  · obtain ⟨fuel, hrun⟩ := hreturns
    cases fuel with
    | zero => simp [run] at hrun
    | succ fuel =>
      rw [run, hstep] at hrun
      exact h.forth result ⟨fuel, hrun⟩
  · obtain ⟨result, hreturns', hQ⟩ := h.back result' hreturns
    exact ⟨result, returns_of_step hstep hreturns', hQ⟩

/-- **A machine that follows another returns as it does.** -/
theorem alike_of_follows (hfollows : ∀ s s', P s s' → Follows step step' P Q rank s s')
    {s : S} {s' : S'} (h : P s s') (hsafe : Safe step' s') : Alike step step' Q s s' :=
  ⟨safe_of_follows hfollows h hsafe, hsafe, fun _ => returns_of_followed hfollows h hsafe,
    fun _ => returns_of_follows hfollows h⟩

/-- **Machines that run together return alike.** -/
theorem alike_of_both {s : S} {s' : S'}
    (h : ∀ fuel, Both P Q (run step fuel s) (run step' fuel s')) : Alike step step' Q s s' := by
  refine ⟨fun fuel => ?_, fun fuel => ?_, fun result hreturns => ?_, fun result' hreturns => ?_⟩
  · obtain ⟨x, y, hx, -, -⟩ := h fuel
    rw [hx]
    rfl
  · obtain ⟨x, y, -, hy, -⟩ := h fuel
    rw [hy]
    rfl
  · obtain ⟨fuel, hrun⟩ := hreturns
    obtain ⟨result', hrun', hQ⟩ := (hrun ▸ h fuel).exists_inr
    exact ⟨result', ⟨fuel, hrun'⟩, hQ⟩
  · obtain ⟨fuel, hrun⟩ := hreturns
    obtain ⟨result, hrun', hQ⟩ := (hrun ▸ h fuel).symm.exists_inr
    exact ⟨result, ⟨fuel, hrun'⟩, hQ⟩

/-! ## A step for each of a list -/

section Folds

variable {A : Type*} {f : S → A → Option S} {I : S → Prop} {list : List A} {s s' : S}

/-- What every step preserves is so after all of them. -/
lemma foldlM_keeps (hf : ∀ s s' a, a ∈ list → I s → f s a = some s' → I s') (h : I s)
    (hfold : list.foldlM f s = some s') : I s' := by
  induction list generalizing s with
  | nil =>
    obtain rfl := Option.some.inj hfold
    exact h
  | cons a list ih =>
    obtain ⟨next, hnext, hrest⟩ := Option.bind_eq_some_iff.mp hfold
    exact ih (fun s s' b hb => hf s s' b (List.mem_cons_of_mem _ hb))
      (hf s next a List.mem_cons_self h hnext) hrest

/-- Where no step is undefined, from what every step preserves, all of them are defined. -/
lemma foldlM_isSome (hf : ∀ s a, a ∈ list → I s → ∃ s', f s a = some s' ∧ I s') (h : I s) :
    ∃ s', list.foldlM f s = some s' ∧ I s' := by
  induction list generalizing s with
  | nil => exact ⟨s, rfl, h⟩
  | cons a list ih =>
    obtain ⟨next, hnext, hI⟩ := hf s a List.mem_cons_self h
    obtain ⟨s', hrest, hI'⟩ := ih (fun s b hb => hf s b (List.mem_cons_of_mem _ hb)) hI
    exact ⟨s', by rw [List.foldlM_cons, hnext]; exact hrest, hI'⟩

end Folds

/-! ## Machines that answer -/

section Answers

variable {U A : Type*}

/-- What a machine answers to a list of requests, one after another. -/
def answers (use : S → U → Option (A × S)) : S → List U → Option (List A)
  | _, [] => some []
  | s, request :: requests =>
    match use s request with
    | none => none
    | some (answer, s) => (answers use s requests).map (answer :: ·)

/-- **Machines that answer the same from related states, which they leave related, answer the same
to every list of requests.** -/
theorem answers_eq {use : S → U → Option (A × S)} {use' : S' → U → Option (A × S')}
    {P : S → S' → Prop} (huse : ∀ s s' request, P s s' →
      Option.Rel (fun x y => x.1 = y.1 ∧ P x.2 y.2) (use s request) (use' s' request))
    {s : S} {s' : S'} (h : P s s') (requests : List U) :
    answers use s requests = answers use' s' requests := by
  induction requests generalizing s s' with
  | nil => rfl
  | cons request requests ih =>
    have hrel := huse s s' request h
    rw [answers, answers]
    generalize use s request = a at hrel ⊢
    generalize use' s' request = b at hrel ⊢
    cases hrel with
    | none => rfl
    | @some x y hsame =>
      obtain ⟨answer, next⟩ := x
      obtain ⟨answer', next'⟩ := y
      obtain ⟨rfl, hnext⟩ : answer = answer' ∧ P next next' := hsame
      simp only [ih hnext]

/-- **A machine that answers each request, from what it preserves, answers every list of them.** -/
theorem answers_isSome {use : S → U → Option (A × S)} {I : S → Prop} {requests : List U}
    (huse : ∀ s request, request ∈ requests → I s →
      ∃ answer s', use s request = some (answer, s') ∧ I s') {s : S} (h : I s) :
    (answers use s requests).isSome := by
  induction requests generalizing s with
  | nil => rfl
  | cons request requests ih =>
    obtain ⟨answer, s', hanswer, hnext⟩ := huse s request List.mem_cons_self h
    have hrest := ih (fun s request hmem => huse s request (List.mem_cons_of_mem _ hmem)) hnext
    rw [answers, hanswer]
    simpa using hrest

end Answers

end BapNative.Lockstep
