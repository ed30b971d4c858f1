/-! Steps and calls made one after another, and runs that answer alike. -/
namespace PropertyGraph

theorem bind_eq_ok {ε α β : Type} {x : Except ε α} {f : α → Except ε β} {b : β} :
    (x >>= f) = .ok b ↔ ∃ a, x = .ok a ∧ f a = .ok b := by
  cases x with
  | error fault => simp [bind, Except.bind]
  | ok a => simp [bind, Except.bind]

theorem bind_eq_error {ε α β : Type} {x : Except ε α} {f : α → Except ε β} {fault : ε} :
    (x >>= f) = .error fault ↔ x = .error fault ∨ ∃ a, x = .ok a ∧ f a = .error fault := by
  cases x with
  | error fault' => simp [bind, Except.bind]
  | ok a => simp [bind, Except.bind]

theorem map_eq_ok {ε α β : Type} {x : Except ε α} {f : α → β} {b : β} :
    x.map f = .ok b ↔ ∃ a, x = .ok a ∧ f a = b := by
  cases x <;> simp [Except.map]

theorem map_eq_error {ε α β : Type} {x : Except ε α} {f : α → β} {fault : ε} :
    x.map f = .error fault ↔ x = .error fault := by
  cases x <;> simp [Except.map]

/-- Steps that all succeed, and nothing else, make a list of answers. -/
theorem mapM_eq_ok {ε α β : Type} {f : α → Except ε β} {xs : List α} {ys : List β} :
    xs.mapM f = .ok ys ↔ xs.map f = ys.map .ok := by
  induction xs generalizing ys with
  | nil => cases ys <;> simp [pure, Except.pure]
  | cons x xs ih =>
    rw [List.mapM_cons, bind_eq_ok]
    constructor
    · rintro ⟨y, hy, h⟩
      obtain ⟨ys', hys, h⟩ := bind_eq_ok.mp h
      cases h
      rw [List.map_cons, List.map_cons, hy, ih.mp hys]
    · intro h
      cases ys with
      | nil => simp at h
      | cons y ys =>
        obtain ⟨hy, hys⟩ := List.cons.inj h
        exact ⟨y, hy, bind_eq_ok.mpr ⟨ys, ih.mpr hys, rfl⟩⟩

/-- The first step that fails decides, whatever comes behind it. -/
theorem mapM_eq_error {ε α β : Type} {f : α → Except ε β} {xs : List α} {fault : ε} :
    xs.mapM f = .error fault ↔ ∃ before x after, xs = before ++ x :: after ∧
      (∀ y ∈ before, ∃ b, f y = .ok b) ∧ f x = .error fault := by
  induction xs with
  | nil => simp [pure, Except.pure]
  | cons x xs ih =>
    rw [List.mapM_cons, bind_eq_error]
    constructor
    · rintro (hx | ⟨b, hx, h⟩)
      · exact ⟨[], x, xs, rfl, by simp, hx⟩
      · rcases bind_eq_error.mp h with h | ⟨_, -, h⟩
        · obtain ⟨before, y, after, rfl, hb, hy⟩ := ih.mp h
          refine ⟨x :: before, y, after, rfl, ?_, hy⟩
          intro z hz
          rcases List.mem_cons.mp hz with rfl | hz
          · exact ⟨b, hx⟩
          · exact hb z hz
        · cases h
    · rintro ⟨before, y, after, he, hb, hy⟩
      cases before with
      | nil =>
        obtain ⟨rfl, rfl⟩ := List.cons.inj he
        exact .inl hy
      | cons z before =>
        obtain ⟨rfl, rfl⟩ := List.cons.inj he
        obtain ⟨b, hz⟩ := hb x List.mem_cons_self
        refine .inr ⟨b, hz, bind_eq_error.mpr (.inl (ih.mpr ?_))⟩
        exact ⟨before, y, after, rfl, fun w hw => hb w (List.mem_cons_of_mem _ hw), hy⟩

/-- The answers to calls made one after another, and the state after them. -/
def runCalls {σ γ α : Type} (step : σ → γ → α × σ) : σ → List γ → List α × σ
  | s, [] => ([], s)
  | s, c :: cs =>
    let (answer, s') := step s c
    let (answers, s'') := runCalls step s' cs
    (answer :: answers, s'')

theorem mem_runCalls {σ γ α : Type} {step : σ → γ → α × σ} {P : α → Prop}
    (h : ∀ s c, P (step s c).1) (s : σ) (calls : List γ) :
    ∀ answer ∈ (runCalls step s calls).1, P answer := by
  induction calls generalizing s with
  | nil => simp [runCalls]
  | cons c cs ih =>
    intro answer ha
    rcases List.mem_cons.mp ha with rfl | ha
    · exact h s c
    · exact ih _ answer ha

section Agreement
variable {σ τ γ α : Type} {step : σ → γ → α × σ} {step' : τ → γ → α × τ}
  {R : σ → τ → Prop} {Ok : τ → Prop}

/-- Runs agree if their steps do, as long as `Ok` holds between the calls of the second one. -/
theorem runCalls_agree
    (hstep : ∀ s t c, R s t → Ok t → Ok (step' t c).2 →
      (step s c).1 = (step' t c).1 ∧ R (step s c).2 (step' t c).2)
    (calls : List γ) {s : σ} {t : τ} (h : R s t)
    (hok : ∀ before, before <+: calls → Ok (runCalls step' t before).2) :
    (runCalls step s calls).1 = (runCalls step' t calls).1 ∧
      R (runCalls step s calls).2 (runCalls step' t calls).2 := by
  induction calls generalizing s t with
  | nil => exact ⟨rfl, h⟩
  | cons c cs ih =>
    have h₀ : Ok t := hok [] List.nil_prefix
    have h₁ : Ok (step' t c).2 := hok [c] (by simp)
    obtain ⟨ha, hs⟩ := hstep s t c h h₀ h₁
    obtain ⟨has, hss⟩ := ih hs fun before hb => hok (c :: before) (by simpa using hb)
    exact ⟨by simp [runCalls, ha, has], hss⟩

end Agreement

end PropertyGraph
