import Mathlib.Data.List.Basic

/-!
# Sequencing — steps that can fail

A step after another one, or one step for each entry of a list, succeeds exactly if all the steps do.
-/

namespace AssetEmbed

variable {α β σ ε ε' : Type}

/-! ## 1. Two steps -/

theorem bind_eq_ok {x : Except ε α} {f : α → Except ε β} {b : β} :
    (x >>= f) = .ok b ↔ ∃ a, x = .ok a ∧ f a = .ok b := by
  cases x <;> simp [bind, Except.bind]

theorem pure_eq_ok {a b : α} : (pure a : Except ε α) = .ok b ↔ a = b := by
  simp [pure, Except.pure]

theorem map_eq_ok {f : α → β} {x : Except ε α} {b : β} :
    f <$> x = .ok b ↔ ∃ a, x = .ok a ∧ f a = b := by
  cases x <;> simp [Functor.map, Except.map]

theorem mapError_eq_ok {x : Except ε α} {f : ε → ε'} {a : α} : x.mapError f = .ok a ↔ x = .ok a := by
  cases x <;> simp [Except.mapError]

theorem bind_isOk {x : Except ε α} {f : α → Except ε β} :
    (∃ b, (x >>= f) = .ok b) ↔ ∃ a, x = .ok a ∧ ∃ b, f a = .ok b := by
  simp only [bind_eq_ok]
  constructor
  · rintro ⟨b, a, hx, hf⟩
    exact ⟨a, hx, b, hf⟩
  · rintro ⟨a, hx, b, hf⟩
    exact ⟨b, a, hx, hf⟩

theorem exists_of_toOption_any {x : Except ε α} {test : α → Bool} (h : x.toOption.any test) :
    ∃ a, x = .ok a ∧ test a := by
  cases x with
  | ok a => exact ⟨a, rfl, h⟩
  | error e => cases h

/-! ## 2. A step for each entry of a list -/

theorem mapM_isOk {f : α → Except ε β} {as : List α} :
    (∃ bs, as.mapM f = .ok bs) ↔ ∀ a ∈ as, ∃ b, f a = .ok b := by
  induction as with
  | nil => simp [pure_eq_ok]
  | cons a as ih =>
    rw [List.mapM_cons, bind_isOk, List.forall_mem_cons]
    constructor
    · rintro ⟨b, hb, hrest⟩
      obtain ⟨bs, hbs, -⟩ := bind_isOk.1 hrest
      exact ⟨⟨b, hb⟩, ih.1 ⟨bs, hbs⟩⟩
    · rintro ⟨⟨b, hb⟩, hrest⟩
      obtain ⟨bs, hbs⟩ := ih.2 hrest
      exact ⟨b, hb, bind_isOk.2 ⟨bs, hbs, b :: bs, rfl⟩⟩

theorem mem_iff_of_mapM_eq_ok {f : α → Except ε β} {as : List α} {bs : List β} (h : as.mapM f = .ok bs) {b : β} :
    b ∈ bs ↔ ∃ a ∈ as, f a = .ok b := by
  induction as generalizing bs with
  | nil =>
    cases h
    simp
  | cons a as ih =>
    rw [List.mapM_cons] at h
    obtain ⟨first, hfirst, hmore⟩ := bind_eq_ok.1 h
    obtain ⟨rest, hrest, hbs⟩ := bind_eq_ok.1 hmore
    cases hbs
    rw [List.mem_cons, ih hrest, List.exists_mem_cons_iff, hfirst, Except.ok.injEq, eq_comm]

/-- Steps for the entries of a list fail with the fault of one of them. -/
theorem exists_of_mapM_eq_error {f : α → Except ε β} {as : List α} {e : ε} (h : as.mapM f = .error e) :
    ∃ a ∈ as, f a = .error e := by
  induction as with
  | nil => cases h
  | cons a as ih =>
    rw [List.mapM_cons] at h
    cases hfirst : f a with
    | error e' =>
      rw [hfirst] at h
      cases h
      exact ⟨a, List.mem_cons_self, hfirst⟩
    | ok b =>
      cases hrest : as.mapM f with
      | error e' =>
        rw [hfirst, hrest] at h
        cases h
        obtain ⟨c, hc, hfault⟩ := ih hrest
        exact ⟨c, List.mem_cons_of_mem _ hc, hfault⟩
      | ok bs =>
        rw [hfirst, hrest] at h
        cases h

theorem foldlM_map_state {τ : Type} (part : τ → σ) (g : τ → α → Except ε τ) {f : σ → α → Except ε σ}
    (hstep : ∀ t a, f (part t) a = part <$> g t a) (as : List α) (t : τ) :
    as.foldlM f (part t) = part <$> as.foldlM g t := by
  induction as generalizing t with
  | nil => rfl
  | cons a as ih =>
    rw [List.foldlM_cons, List.foldlM_cons, hstep]
    cases g t a with
    | error e => rfl
    | ok t => exact ih t

theorem foldlM_eq_ok_self {f : σ → α → Except ε σ} {as : List α} {s : σ} (h : ∀ a ∈ as, f s a = .ok s) :
    as.foldlM f s = .ok s := by
  induction as with
  | nil => rfl
  | cons a as ih =>
    rw [List.foldlM_cons, h a List.mem_cons_self]
    exact ih fun a ha => h a (List.mem_cons_of_mem _ ha)

/-! ## 3. Where steps end -/

/-- Whether steps end in a state of some kind, or fail with a fault of some kind. -/
def Ends (P : σ → Prop) (R : ε → Prop) : Except ε σ → Prop
  | .ok s => P s
  | .error e => R e

variable {P : σ → Prop} {R : ε → Prop}

theorem Ends.bind {Q : α → Prop} {x : Except ε α} {f : α → Except ε σ} (hx : Ends Q R x)
    (hf : ∀ a, Q a → Ends P R (f a)) : Ends P R (x >>= f) := by
  cases x with
  | error e => exact hx
  | ok a => exact hf a hx

theorem ends_foldlM {step : σ → α → Except ε σ} (hstep : ∀ s a, P s → Ends P R (step s a)) {s : σ}
    (hs : P s) (as : List α) : Ends P R (as.foldlM step s) := by
  induction as generalizing s with
  | nil => exact hs
  | cons a as ih =>
    rw [List.foldlM_cons]
    exact (hstep s a hs).bind fun t ht => ih ht

/-! ## 4. Steps side by side -/

section SideBySide

variable {τ ε₁ ε₂ : Type} {E : ε₁ → ε₂ → Prop} {S : σ → τ → Prop}

/-- Whether two steps both succeed with results that are related, or both fail with faults that are related. -/
inductive Agree (E : ε₁ → ε₂ → Prop) (S : σ → τ → Prop) : Except ε₁ σ → Except ε₂ τ → Prop
  | ok {s : σ} {t : τ} (h : S s t) : Agree E S (.ok s) (.ok t)
  | error {e : ε₁} {e' : ε₂} (h : E e e') : Agree E S (.error e) (.error e')

theorem Agree.bind {A : α → β → Prop} {x : Except ε₁ α} {y : Except ε₂ β} {f : α → Except ε₁ σ}
    {g : β → Except ε₂ τ} (hxy : Agree E A x y) (hfg : ∀ a b, A a b → Agree E S (f a) (g b)) :
    Agree E S (x >>= f) (y >>= g) := by
  cases hxy with
  | ok h => exact hfg _ _ h
  | error h => exact .error h

theorem agree_foldlM {f : σ → α → Except ε₁ σ} {g : τ → α → Except ε₂ τ}
    (hstep : ∀ s t a, S s t → Agree E S (f s a) (g t a)) {s : σ} {t : τ} (hst : S s t) (as : List α) :
    Agree E S (as.foldlM f s) (as.foldlM g t) := by
  induction as generalizing s t with
  | nil => exact .ok hst
  | cons a as ih =>
    rw [List.foldlM_cons, List.foldlM_cons]
    exact (hstep s t a hst).bind fun s t hst => ih hst

theorem agree_mapM {A : α → Except ε₁ σ} {B : α → Except ε₂ τ} {as : List α}
    (h : ∀ a ∈ as, Agree E S (A a) (B a)) : Agree E (List.Forall₂ S) (as.mapM A) (as.mapM B) := by
  induction as with
  | nil => exact .ok .nil
  | cons a as ih =>
    rw [List.mapM_cons, List.mapM_cons]
    refine (h a List.mem_cons_self).bind fun s t hst => ?_
    exact (ih fun a ha => h a (List.mem_cons_of_mem _ ha)).bind fun ss ts hrest => .ok (.cons hst hrest)

/-- Steps that come to their end are kept up with by those for some of the entries, if the steps for the others
change nothing of what is related. -/
theorem exists_foldlM_filter {f : σ → α → Except ε₁ σ} {g : τ → α → Except ε₂ τ} {p : α → Bool} {as : List α}
    (hkeep : ∀ a ∈ as, p a = true → ∀ s t t', S s t → g t a = .ok t' → ∃ s', f s a = .ok s' ∧ S s' t')
    (hskip : ∀ a ∈ as, p a = false → ∀ s t t', S s t → g t a = .ok t' → S s t') {s : σ} {t t' : τ}
    (hst : S s t) (h : as.foldlM g t = .ok t') : ∃ s', (as.filter p).foldlM f s = .ok s' ∧ S s' t' := by
  induction as generalizing s t with
  | nil =>
    cases h
    exact ⟨s, rfl, hst⟩
  | cons a as ih =>
    rw [List.foldlM_cons] at h
    obtain ⟨mid, hmid, h⟩ := bind_eq_ok.1 h
    obtain ⟨hkeepHere, hkeep⟩ := List.forall_mem_cons.1 hkeep
    obtain ⟨hskipHere, hskip⟩ := List.forall_mem_cons.1 hskip
    cases ha : p a with
    | true =>
      obtain ⟨s', hs', hst'⟩ := hkeepHere ha s t mid hst hmid
      rw [List.filter_cons_of_pos ha, List.foldlM_cons, hs']
      exact ih hkeep hskip hst' h
    | false =>
      rw [List.filter_cons_of_neg (by rw [ha]; exact Bool.false_ne_true)]
      exact ih hkeep hskip (hskipHere ha s t mid hst hmid) h

end SideBySide

end AssetEmbed
