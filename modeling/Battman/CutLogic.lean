import Mathlib

/-! Programs that a power cut may stop, and their weakest preconditions.
A run from a state either returns a value or is cut; both leave a state behind. `wp` has a
postcondition for each, so that one rule set proves what a program achieves and what
survives when it is stopped at any of its operations; a frame rule of each kind proves what a
program leaves alone. -/
namespace CutLogic

variable {σ τ α β : Type}

/-- A stateful program; a failure is a cut, which keeps the state reached. -/
abbrev Cuttable (σ α : Type) := OptionT (StateM σ) α

/-- What a run leaves: a value unless it was cut, and the state. -/
def exec (x : Cuttable σ α) (s : σ) : Option α × σ := (OptionT.run x).run s

/-- From `s`, a run that returns satisfies `Q` and a run that is cut satisfies `C`. -/
def wp (x : Cuttable σ α) (Q : α → σ → Prop) (C : σ → Prop) (s : σ) : Prop :=
  match exec x s with
  | (some a, t) => Q a t
  | (none, t) => C t

section Rules

variable {Q Q' : α → σ → Prop} {R : β → σ → Prop} {C C' : σ → Prop} {s : σ}

@[simp] theorem wp_pure (a : α) : wp (pure a) Q C s ↔ Q a s := Iff.rfl

theorem exec_bind (x : Cuttable σ α) (f : α → Cuttable σ β) (s : σ) :
    exec (x >>= f) s = match exec x s with
      | (some a, t) => exec (f a) t
      | (none, t) => (none, t) := by
  unfold exec
  rw [OptionT.run_bind, Option.elimM, StateT.run_bind]
  change (match (OptionT.run x).run s with | (a, t) => _) = _
  rcases (OptionT.run x).run s with ⟨_ | a, t⟩ <;> rfl

@[simp] theorem wp_bind (x : Cuttable σ α) (f : α → Cuttable σ β) :
    wp (x >>= f) R C s ↔ wp x (fun a t => wp (f a) R C t) C s := by
  unfold wp
  rw [exec_bind]
  rcases exec x s with ⟨_ | a, t⟩ <;> rfl

@[simp] theorem wp_map (x : Cuttable σ α) (f : α → β) :
    wp (f <$> x) R C s ↔ wp x (fun a t => R (f a) t) C s := by
  rw [map_eq_pure_bind, wp_bind]
  rfl

@[simp] theorem wp_get (Q : σ → σ → Prop) : wp (get : Cuttable σ σ) Q C s ↔ Q s s := Iff.rfl

@[simp] theorem wp_set (t : σ) (Q : PUnit → σ → Prop) :
    wp (set t : Cuttable σ PUnit) Q C s ↔ Q ⟨⟩ t := Iff.rfl

@[simp] theorem wp_modify (f : σ → σ) (Q : PUnit → σ → Prop) :
    wp (modify f : Cuttable σ PUnit) Q C s ↔ Q ⟨⟩ (f s) := Iff.rfl

@[simp] theorem wp_failure : wp (failure : Cuttable σ α) Q C s ↔ C s := Iff.rfl

theorem wp_mono {x : Cuttable σ α} (h : wp x Q C s) (hQ : ∀ a t, Q a t → Q' a t)
    (hC : ∀ t, C t → C' t) : wp x Q' C' s := by
  unfold wp at *
  rcases he : exec x s with ⟨_ | a, t⟩ <;> rw [he] at h
  · exact hC t h
  · exact hQ a t h

theorem wp_seq {x : Cuttable σ α} {f : α → Cuttable σ β} (h : wp x Q C s)
    (hf : ∀ a t, Q a t → wp (f a) R C' t) (hC : ∀ t, C t → C' t) :
    wp (x >>= f) R C' s :=
  (wp_bind x f).mpr (wp_mono h hf hC)

theorem wp_and {x : Cuttable σ α} (h : wp x Q C s) (h' : wp x Q' C' s) :
    wp x (fun a t => Q a t ∧ Q' a t) (fun t => C t ∧ C' t) s := by
  unfold wp at *
  rcases he : exec x s with ⟨_ | a, t⟩ <;> rw [he] at h h' <;> exact ⟨h, h'⟩

theorem wp_all {ι : Type} {x : Cuttable σ α} {Q : ι → α → σ → Prop} {C : ι → σ → Prop}
    (h : ∀ i, wp x (Q i) (C i) s) : wp x (fun a t => ∀ i, Q i a t) (fun t => ∀ i, C i t) s := by
  unfold wp at *
  rcases he : exec x s with ⟨_ | a, t⟩
  · exact fun i => by simpa only [he] using h i
  · exact fun i => by simpa only [he] using h i

theorem wp_true (x : Cuttable σ α) (s : σ) : wp x (fun _ _ => True) (fun _ => True) s := by
  unfold wp
  split <;> trivial

theorem wp_result {x : Cuttable σ α} {a : α} {t : σ} (h : wp x Q C s)
    (he : exec x s = (some a, t)) : Q a t := by
  unfold wp at h
  rwa [he] at h

/-- A program whose cut condition is unsatisfiable returns. -/
theorem wp_returns {x : Cuttable σ α} (h : wp x Q (fun _ => False) s) :
    ∃ a t, exec x s = (some a, t) ∧ Q a t := by
  unfold wp at h
  rcases he : exec x s with ⟨_ | a, t⟩ <;> rw [he] at h
  · exact h.elim
  · exact ⟨a, t, rfl, h⟩

end Rules

structure Part (τ σ : Type) where
  get : τ → σ
  put : σ → τ → τ

/-- A program on a part of the state, run on the whole. -/
def onPart (p : Part τ σ) (x : Cuttable σ α) : Cuttable τ α :=
  OptionT.mk fun t =>
    match exec x (p.get t) with
    | (r, s) => (r, p.put s t)

@[simp] theorem wp_onPart (p : Part τ σ) (x : Cuttable σ α) {Q : α → τ → Prop} {C : τ → Prop}
    {t : τ} : wp (onPart p x) Q C t ↔
      wp x (fun a s => Q a (p.put s t)) (fun s => C (p.put s t)) (p.get t) := by
  unfold wp
  have h : exec (onPart p x) t = ((exec x (p.get t)).1, p.put (exec x (p.get t)).2 t) := rfl
  rw [h]
  rcases exec x (p.get t) with ⟨_ | a, s⟩ <;> rfl

def onCut (f : σ → σ) (x : Cuttable σ α) : Cuttable σ α :=
  OptionT.mk fun s =>
    match exec x s with
    | (some a, t) => (some a, t)
    | (none, t) => (none, f t)

@[simp] theorem wp_onCut (f : σ → σ) (x : Cuttable σ α) {Q : α → σ → Prop} {C : σ → Prop}
    {s : σ} : wp (onCut f x) Q C s ↔ wp x Q (fun t => C (f t)) s := by
  unfold wp
  have h : exec (onCut f x) s = match exec x s with
      | (some a, t) => (some a, t)
      | (none, t) => (none, f t) := rfl
  rw [h]
  rcases exec x s with ⟨_ | a, t⟩ <;> rfl

section Frames

variable {γ δ : Type} {f : σ → γ}

/-- The program leaves `f` alone, whether it returns or is cut. -/
def Preserves (f : σ → γ) (x : Cuttable σ α) : Prop :=
  ∀ s, wp x (fun _ t => f t = f s) (fun t => f t = f s) s

theorem Preserves.bind {x : Cuttable σ α} {g : α → Cuttable σ β} (hx : Preserves f x)
    (hg : ∀ a, Preserves f (g a)) : Preserves f (x >>= g) := by
  intro s
  rw [wp_bind]
  refine wp_mono (hx s) (fun a t ht => ?_) fun _ ht => ht
  rw [← ht]
  exact hg a t

theorem preserves_pure (a : α) : Preserves f (pure a) := fun _ => rfl

theorem preserves_get {g : σ → Cuttable σ α} (h : ∀ s, Preserves f (g s)) :
    Preserves f (get >>= g) := fun s => h s s

theorem preserves_modify {g : σ → σ} (h : ∀ s, f (g s) = f s) : Preserves f (modify g) := h

theorem Preserves.map {x : Cuttable σ α} (hx : Preserves f x) (g : α → β) :
    Preserves f (g <$> x) := by
  intro s
  rw [wp_map]
  exact hx s

theorem Preserves.onPart {p : Part τ σ} {x : Cuttable σ α} {g : τ → δ} (hx : Preserves f x)
    (h : ∀ s t, f s = f (p.get t) → g (p.put s t) = g t) : Preserves g (onPart p x) := by
  intro t
  rw [wp_onPart]
  exact wp_mono (hx (p.get t)) (fun _ s hs => h s t hs) fun s hs => h s t hs

theorem Preserves.onCut {x : Cuttable σ α} {g : σ → σ} (hx : Preserves f x)
    (h : ∀ s, f (g s) = f s) : Preserves f (onCut g x) := by
  intro s
  rw [wp_onCut]
  exact wp_mono (hx s) (fun _ _ ht => ht) fun t ht => (h t).trans ht

theorem Preserves.exec {x : Cuttable σ α} (hx : Preserves f x) (s : σ) :
    f (exec x s).2 = f s := by
  have h := hx s
  unfold wp at h
  rcases he : CutLogic.exec x s with ⟨_ | a, t⟩ <;> rw [he] at h <;> exact h

end Frames

end CutLogic
