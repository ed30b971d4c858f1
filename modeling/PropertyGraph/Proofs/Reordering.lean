import PropertyGraph.Proofs.Run

/-! Calls that do not see each other may be made in another order. -/
namespace PropertyGraph

variable {σ γ α κ : Type} {step : σ → γ → α × σ} {c d : γ} {calls calls' before after : List γ}

/-- Neither call sees whether the other one was made before it. -/
structure Independent (step : σ → γ → α × σ) (c d : γ) : Prop where
  left : ∀ s, (step (step s d).2 c).1 = (step s c).1
  right : ∀ s, (step (step s c).2 d).1 = (step s d).1
  state : ∀ s, (step (step s c).2 d).2 = (step (step s d).2 c).2

theorem Independent.symm (h : Independent step c d) : Independent step d c :=
  ⟨h.right, h.left, fun s => (h.state s).symm⟩

theorem runCalls_cons (s : σ) (c : γ) (cs : List γ) :
    runCalls step s (c :: cs) =
      ((step s c).1 :: (runCalls step (step s c).2 cs).1, (runCalls step (step s c).2 cs).2) := rfl

theorem runCalls_append (s : σ) (xs ys : List γ) :
    runCalls step s (xs ++ ys) =
      ((runCalls step s xs).1 ++ (runCalls step (runCalls step s xs).2 ys).1,
        (runCalls step (runCalls step s xs).2 ys).2) := by
  induction xs generalizing s with
  | nil => rfl
  | cons x xs ih =>
    rw [List.cons_append, runCalls_cons, ih, runCalls_cons, List.cons_append]

@[simp] theorem length_runCalls (s : σ) (calls : List γ) :
    (runCalls step s calls).1.length = calls.length := by
  induction calls generalizing s with
  | nil => rfl
  | cons c cs ih => exact congrArg (· + 1) (ih _)

/-- A call passes over others that do not see it. -/
theorem runCalls_of_independent (h : ∀ d ∈ before, Independent step c d) (s : σ) :
    (runCalls step (step s c).2 before).1 = (runCalls step s before).1 ∧
      (step (runCalls step s before).2 c).1 = (step s c).1 ∧
      (step (runCalls step s before).2 c).2 = (runCalls step (step s c).2 before).2 := by
  induction before generalizing s with
  | nil => exact ⟨rfl, rfl, rfl⟩
  | cons d ds ih =>
    obtain ⟨hd, hds⟩ := List.forall_mem_cons.mp h
    obtain ⟨ha, hc, hs⟩ := ih hds (step s d).2
    rw [← hd.state s] at ha hs
    refine ⟨?_, hc.trans (hd.left s), hs⟩
    rw [runCalls_cons, runCalls_cons, hd.right s, ha]

section Permutations

/-- Of calls that do not see each other each is answered as if it were made alone. -/
theorem answers_of_pairwise (h : calls.Pairwise (Independent step)) (s : σ) :
    (runCalls step s calls).1 = calls.map fun c => (step s c).1 := by
  induction calls generalizing s with
  | nil => rfl
  | cons c cs ih =>
    obtain ⟨hc, hcs⟩ := List.pairwise_cons.mp h
    obtain ⟨ha, -, -⟩ := runCalls_of_independent hc s
    rw [runCalls_cons, ha, ih hcs, List.map_cons]

theorem state_of_perm (hp : calls.Perm calls') (h : calls.Pairwise (Independent step)) (s : σ) :
    (runCalls step s calls).2 = (runCalls step s calls').2 := by
  induction hp generalizing s with
  | nil => rfl
  | cons c _ ih => exact ih (List.pairwise_cons.mp h).2 (step s c).2
  | swap c d cs =>
    have hd := (List.pairwise_cons.mp h).1 c List.mem_cons_self
    exact congrArg (fun s => (runCalls step s cs).2) (hd.state s)
  | trans hp _ ih ih' =>
    have h' := (hp.pairwise_iff fun h => Independent.symm h).mp h
    exact (ih h s).trans (ih' h' s)

end Permutations

section Keys
variable [DecidableEq κ] {key : γ → κ}

/-- The calls, each with its answer. -/
def answered (step : σ → γ → α × σ) (s : σ) (calls : List γ) : List (γ × α) :=
  calls.zip (runCalls step s calls).1

theorem answered_append (s : σ) (xs ys : List γ) :
    answered step s (xs ++ ys) =
      answered step s xs ++ answered step (runCalls step s xs).2 ys := by
  rw [answered, runCalls_append, List.zip_append (length_runCalls s xs).symm]
  rfl

theorem answered_cons (s : σ) (c : γ) (cs : List γ) :
    answered step s (c :: cs) = (c, (step s c).1) :: answered step (step s c).2 cs := rfl

theorem filter_answered_eq_nil {k : κ} (h : ∀ c ∈ calls, key c ≠ k) (s : σ) :
    (answered step s calls).filter (key ·.1 = k) = [] := by
  rw [List.filter_eq_nil_iff]
  rintro ⟨c, answer⟩ hc
  simpa using h c (List.of_mem_zip hc).1

/-- A call that is made before others of other keys is answered as behind them, and so are they. -/
theorem filter_answered_front (h : ∀ d ∈ before, key d ≠ key c)
    (hi : ∀ d ∈ before, Independent step c d) (s : σ) (k : κ) :
    (answered step s (before ++ c :: after)).filter (key ·.1 = k) =
      (answered step s (c :: (before ++ after))).filter (key ·.1 = k) := by
  obtain ⟨ha, hc, hs⟩ := runCalls_of_independent hi s
  have hb : answered step (step s c).2 before = answered step s before := by
    rw [answered, answered, ha]
  rw [answered_append, answered_cons, answered_cons, answered_append, hb, hc, hs]
  by_cases hk : key c = k
  · have hn : (answered step s before).filter (key ·.1 = k) = [] :=
      filter_answered_eq_nil (fun d hd => hk ▸ h d hd) s
    rw [List.filter_append, hn, List.filter_cons_of_pos (by simpa using hk),
      List.filter_cons_of_pos (by simpa using hk), List.filter_append, hn, List.nil_append,
      List.nil_append]
  · rw [List.filter_append, List.filter_cons_of_neg (by simpa using hk),
      List.filter_cons_of_neg (by simpa using hk), List.filter_append]

theorem state_front (hi : ∀ d ∈ before, Independent step c d) (s : σ) :
    (runCalls step s (before ++ c :: after)).2 = (runCalls step s (c :: (before ++ after))).2 := by
  obtain ⟨-, -, hs⟩ := runCalls_of_independent hi s
  rw [runCalls_append, runCalls_cons, runCalls_cons, runCalls_append, hs]

/-- If calls of different keys do not see each other only the order of those of one key matters. -/
theorem answered_of_filter_eq (hi : ∀ c d, key c ≠ key d → Independent step c d)
    (h : ∀ k, calls.filter (key · = k) = calls'.filter (key · = k)) (s : σ) :
    (∀ k, (answered step s calls).filter (key ·.1 = k) =
        (answered step s calls').filter (key ·.1 = k)) ∧
      (runCalls step s calls).2 = (runCalls step s calls').2 := by
  induction calls generalizing calls' s with
  | nil =>
    have hn : calls' = [] := by
      rw [List.eq_nil_iff_forall_not_mem]
      intro c hc
      have hk : c ∈ calls'.filter (key · = key c) := List.mem_filter.mpr ⟨hc, by simp⟩
      rw [← h] at hk
      cases hk
    rw [hn]
    exact ⟨fun _ => rfl, rfl⟩
  | cons c cs ih =>
    have hc := (h (key c)).symm
    rw [List.filter_cons_of_pos (by simp), List.filter_eq_cons_iff] at hc
    obtain ⟨before, after, rfl, hb, -, ha⟩ := hc
    have hne : ∀ d ∈ before, key d ≠ key c := by simpa using hb
    have hib : ∀ d ∈ before, Independent step c d := fun d hd => hi c d (hne d hd).symm
    have htail : ∀ k, cs.filter (key · = k) = (before ++ after).filter (key · = k) := by
      intro k
      by_cases hk : key c = k
      · subst hk
        have hn : before.filter (key · = key c) = [] := by simpa [List.filter_eq_nil_iff] using hne
        rw [List.filter_append, hn, List.nil_append, ha]
      · have hf := h k
        rw [List.filter_cons_of_neg (by simpa using hk), List.filter_append,
          List.filter_cons_of_neg (by simpa using hk)] at hf
        rw [hf, List.filter_append]
    obtain ⟨hans, hst⟩ := ih htail (step s c).2
    refine ⟨?_, ?_⟩
    · intro k
      rw [filter_answered_front hne hib, answered_cons, answered_cons, List.filter_cons,
        List.filter_cons, hans k]
    · rw [state_front hib]
      exact hst

end Keys

section Faults
variable {ε τ : Type} {f f' g : σ → Except ε σ}

/-- Neither step changes whether or how the other one fails, and if neither fails it does not matter
which one is first. -/
structure Commuting (f g : σ → Except ε σ) : Prop where
  both : ∀ {x y z}, f x = .ok y → g x = .ok z → ∃ w, g y = .ok w ∧ f z = .ok w
  left : ∀ {x z fault}, f x = .error fault → g x = .ok z → f z = .error fault
  right : ∀ {x y fault}, g x = .error fault → f x = .ok y → g y = .error fault

theorem Commuting.symm (h : Commuting f g) : Commuting g f where
  both hg hf := by
    obtain ⟨w, hw, hw'⟩ := h.both hf hg
    exact ⟨w, hw', hw⟩
  left := h.right
  right := h.left

theorem Commuting.ok (g : σ → Except ε σ) : Commuting .ok g where
  both hf hg := by
    cases hf
    exact ⟨_, hg, rfl⟩
  left hf _ := by cases hf
  right hg hf := by
    cases hf
    exact hg

theorem Commuting.error (fault : ε) (g : σ → Except ε σ) : Commuting (fun _ => .error fault) g where
  both hf _ := by cases hf
  left hf _ := hf
  right _ hf := by cases hf

theorem Commuting.bind (h : Commuting f g) (h' : Commuting f' g) :
    Commuting (fun x => f x >>= f') g where
  both hf hg := by
    obtain ⟨y, hy, hf⟩ := bind_eq_ok.mp hf
    obtain ⟨w, hgy, hfz⟩ := h.both hy hg
    obtain ⟨w', hg', hf'⟩ := h'.both hf hgy
    exact ⟨w', hg', bind_eq_ok.mpr ⟨w, hfz, hf'⟩⟩
  left hf hg := by
    rcases bind_eq_error.mp hf with hf | ⟨y, hy, hf⟩
    · exact bind_eq_error.mpr (.inl (h.left hf hg))
    · obtain ⟨w, hgy, hfz⟩ := h.both hy hg
      exact bind_eq_error.mpr (.inr ⟨w, hfz, h'.left hf hgy⟩)
  right hg hf := by
    obtain ⟨y, hy, hf⟩ := bind_eq_ok.mp hf
    exact h'.right (h.right hg hy) hf

theorem Commuting.foldlM {step : σ → γ → Except ε σ} {xs : List γ}
    (h : ∀ x ∈ xs, Commuting (step · x) g) : Commuting (fun s => xs.foldlM step s) g := by
  induction xs with
  | nil => exact .ok g
  | cons x xs ih =>
    obtain ⟨hx, hxs⟩ := List.forall_mem_cons.mp h
    simp only [List.foldlM_cons]
    exact hx.bind (ih hxs)

/-- Series of steps commute if each step of one commutes with each of the other. -/
theorem Commuting.foldlM₂ {step : σ → γ → Except ε σ} {xs ys : List γ}
    (h : ∀ x ∈ xs, ∀ y ∈ ys, Commuting (step · x) (step · y)) :
    Commuting (fun s => xs.foldlM step s) fun s => ys.foldlM step s :=
  .foldlM fun x hx => (Commuting.foldlM fun y hy => (h x hx y hy).symm).symm

/-- Steps commute if what they do to another form of the state does. -/
theorem Commuting.of_map {f' g' : τ → Except ε τ} {form : τ → σ}
    (hi : ∀ x y, form x = form y → x = y) (hf : ∀ x, f (form x) = (f' x).map form)
    (hg : ∀ x, g (form x) = (g' x).map form) (h : Commuting f g) : Commuting f' g' where
  both {x y z} hy hz := by
    have hy' := hf x
    have hz' := hg x
    rw [hy] at hy'
    rw [hz] at hz'
    obtain ⟨w, hgy, hfz⟩ := h.both hy' hz'
    rw [hg] at hgy
    rw [hf] at hfz
    obtain ⟨w₁, hw₁, rfl⟩ := map_eq_ok.mp hgy
    obtain ⟨w₂, hw₂, hw⟩ := map_eq_ok.mp hfz
    exact ⟨w₁, hw₁, hi _ _ hw ▸ hw₂⟩
  left {x z fault} hx hz := by
    have hx' := hf x
    have hz' := hg x
    rw [hx] at hx'
    rw [hz] at hz'
    have he := h.left hx' hz'
    rw [hf] at he
    exact map_eq_error.mp he
  right {x y fault} hx hy := by
    have hx' := hg x
    have hy' := hf x
    rw [hx] at hx'
    rw [hy] at hy'
    have he := h.right hx' hy'
    rw [hg] at he
    exact map_eq_error.mp he

/-- A step after whose faults the state is as before. -/
def attempt (f : σ → Except ε σ) (s : σ) : Except ε Unit × σ :=
  match f s with
  | .ok s' => (.ok (), s')
  | .error fault => (.error fault, s)

theorem Commuting.independent {f : γ → σ → Except ε σ} (h : Commuting (f c) (f d)) :
    Independent (fun s c => attempt (f c) s) c d where
  left s := by
    cases hd : f d s with
    | error fault => simp only [attempt, hd]
    | ok z =>
      cases hc : f c s with
      | error fault => simp only [attempt, hd, hc, h.left hc hd]
      | ok y =>
        obtain ⟨w, -, hw⟩ := h.both hc hd
        simp only [attempt, hd, hc, hw]
  right s := by
    cases hc : f c s with
    | error fault => simp only [attempt, hc]
    | ok y =>
      cases hd : f d s with
      | error fault => simp only [attempt, hd, hc, h.right hd hc]
      | ok z =>
        obtain ⟨w, hw, -⟩ := h.both hc hd
        simp only [attempt, hd, hc, hw]
  state s := by
    cases hc : f c s with
    | error fault =>
      cases hd : f d s with
      | error fault' => simp only [attempt, hd, hc]
      | ok z => simp only [attempt, hd, hc, h.left hc hd]
    | ok y =>
      cases hd : f d s with
      | error fault => simp only [attempt, hd, hc, h.right hd hc]
      | ok z =>
        obtain ⟨w, hw, hw'⟩ := h.both hc hd
        simp only [attempt, hd, hc, hw, hw']

end Faults

end PropertyGraph
