import Mathlib

/-! Programs made of atomic steps, between which their surroundings may act on the same
state. An outline gives an assertion for each place of a program; if every step leads from
the assertion of its place to that of the next, and the surroundings keep them all, then the
assertion of the place where a run stands holds. -/
namespace Interference

variable {σ ι ε α β γ : Type}

/-- A step, which stands at a place, changes the state; what comes next depends on the state
before it. -/
inductive Prog (σ ι α : Type) where
  | done (a : α)
  | step (place : ι) (act : σ → σ) (next : σ → Prog σ ι α)

namespace Prog

def bind : Prog σ ι α → (α → Prog σ ι β) → Prog σ ι β
  | done a, f => f a
  | step l act next, f => step l act fun s => (next s).bind f

instance instMonad : Monad (Prog σ ι) where
  pure := done
  bind := bind

def look (l : ι) (f : σ → α) : Prog σ ι α := step l id fun s => done (f s)

def test (l : ι) (f : σ → Bool) : Prog σ ι Bool := look l f

def act (l : ι) (f : σ → σ) : Prog σ ι Unit := step l f fun _ => done ()

def exec : Prog σ ι α → σ → α × σ
  | done a, s => (a, s)
  | step _ g next, s => (next s).exec (g s)

def place : Prog σ ι α → Option ι
  | done _ => none
  | step l _ _ => some l

@[simp] theorem pure_eq (a : α) : (pure a : Prog σ ι α) = done a := rfl

@[simp] theorem done_bind (a : α) (f : α → Prog σ ι β) : done a >>= f = f a := rfl

@[simp] theorem step_bind (l : ι) (g : σ → σ) (next : σ → Prog σ ι α) (f : α → Prog σ ι β) :
    step l g next >>= f = step l g fun s => next s >>= f := rfl

instance instLawfulMonad : LawfulMonad (Prog σ ι) := LawfulMonad.mk' _
  (fun p => by
    induction p with
    | done a => rfl
    | step l g next ih => exact congrArg (step l g) (funext ih))
  (fun _ _ => rfl)
  (fun p f g => by
    induction p with
    | done a => rfl
    | step l h next ih => exact congrArg (step l h) (funext ih))

theorem bind_done (p : Prog σ ι α) : p >>= done = p := bind_pure p

end Prog

open Prog

section Outlines

variable {J : ι → σ → Prop} {R : α → σ → Prop} {S : β → σ → Prop}

/-- The assertion of the place where a program stands, `R` at its end. -/
def Stands (J : ι → σ → Prop) (R : α → σ → Prop) : Prog σ ι α → σ → Prop
  | .done a, s => R a s
  | .step l _ _, s => J l s

/-- Every step leads from the assertion of its place to that of the next. -/
def Outline (J : ι → σ → Prop) (R : α → σ → Prop) : Prog σ ι α → Prop
  | .done _ => True
  | .step l g next => (∀ s, J l s → Stands J R (next s) (g s)) ∧ ∀ s, Outline J R (next s)

theorem stands_bind (p : Prog σ ι α) (f : α → Prog σ ι β) (s : σ) :
    Stands J S (p >>= f) s ↔ Stands J (fun a t => Stands J S (f a) t) p s := by
  cases p <;> rfl

theorem Stands.mono {R' : α → σ → Prop} {p : Prog σ ι α} {s : σ} (h : Stands J R p s)
    (hR : ∀ a t, R a t → R' a t) : Stands J R' p s := by
  cases p with
  | done a => exact hR a s h
  | step l g next => exact h

theorem Outline.mono {R' : α → σ → Prop} {p : Prog σ ι α} (h : Outline J R p)
    (hR : ∀ a t, R a t → R' a t) : Outline J R' p := by
  induction p with
  | done a => trivial
  | step l g next ih => exact ⟨fun s hs => (h.1 s hs).mono hR, fun s => ih s (h.2 s)⟩

theorem outline_bind {p : Prog σ ι α} {f : α → Prog σ ι β}
    (hp : Outline J (fun a t => Stands J S (f a) t) p) (hf : ∀ a, Outline J S (f a)) :
    Outline J S (p >>= f) := by
  induction p with
  | done a => exact hf a
  | step l g next ih =>
    exact ⟨fun s hs => (stands_bind ..).mpr (hp.1 s hs), fun s => ih s (hp.2 s)⟩

/-- `I` is enough for the program to start, and holds again when it ends. -/
structure Keeps (J : ι → σ → Prop) (I : σ → Prop) (p : Prog σ ι α) : Prop where
  outline : Outline J (fun _ => I) p
  start : ∀ s, I s → Stands J (fun _ => I) p s

variable {I : σ → Prop}

theorem Keeps.bind {p : Prog σ ι α} {f : α → Prog σ ι β} (hp : Keeps J I p)
    (hf : ∀ a, Keeps J I (f a)) : Keeps J I (p >>= f) := by
  constructor
  · apply outline_bind
    · exact hp.outline.mono fun a s h => (hf a).start s h
    · exact fun a => (hf a).outline
  · intro s h
    exact (stands_bind ..).mpr ((hp.start s h).mono fun a t ht => (hf a).start t ht)

/-- All steps stand at `l`, and each of them keeps `I`. -/
def Plain (l : ι) (I : σ → Prop) : Prog σ ι α → Prop
  | .done _ => True
  | .step l' g next => l' = l ∧ (∀ s, I s → I (g s)) ∧ ∀ s, Plain l I (next s)

theorem plain_look (l : ι) (f : σ → α) : Plain l I (look l f) :=
  ⟨rfl, fun _ h => h, fun _ => trivial⟩

theorem plain_act {l : ι} {g : σ → σ} (hg : ∀ s, I s → I (g s)) : Plain l I (act l g) :=
  ⟨rfl, hg, fun _ => trivial⟩

theorem Plain.bind {l : ι} {p : Prog σ ι α} {f : α → Prog σ ι β} (hp : Plain l I p)
    (hf : ∀ a, Plain l I (f a)) : Plain l I (p >>= f) := by
  induction p with
  | done a => exact hf a
  | step l' g next ih => exact ⟨hp.1, hp.2.1, fun s => ih s (hp.2.2 s)⟩

theorem plain_cases {l : ι} {c : σ → Bool} {p q : Prog σ ι α} (hp : Plain l I p)
    (hq : Plain l I q) : Plain l I (test l c >>= fun b => if b then p else q) := by
  apply (plain_look l c).bind
  intro b
  cases b
  · exact hq
  · exact hp

theorem plain_when {l : ι} {c : σ → Bool} {p : Prog σ ι Unit} (hp : Plain l I p) :
    Plain l I (test l c >>= fun b => if b then p else pure ()) := plain_cases hp trivial

theorem Plain.keeps {l : ι} {p : Prog σ ι α} (h : Plain l I p) (hJ : ∀ s, J l s ↔ I s) :
    Keeps J I p := by
  have hstart {p : Prog σ ι α} (h : Plain l I p) {s : σ} (hs : I s) :
      Stands J (fun _ => I) p s := by
    cases p with
    | done a => exact hs
    | step l' g next =>
      obtain ⟨rfl, -⟩ := h
      exact (hJ s).mpr hs
  refine ⟨?_, fun s => hstart h⟩
  induction p with
  | done a => trivial
  | step l' g next ih =>
    obtain ⟨rfl, hg, hn⟩ := h
    exact ⟨fun s hs => hstart (hn s) (hg s ((hJ s).mp hs)), fun s => ih s (hn s)⟩

end Outlines

section Tails

variable {P : Prog σ ι β → Prop} {k : α → Prog σ ι β}

/-- `P` holds of what is left of a program, followed by `k`, before each of its steps. -/
def Along (P : Prog σ ι β → Prop) (k : α → Prog σ ι β) : Prog σ ι α → Prop
  | .done _ => True
  | .step l g next => P (.step l g fun s => next s >>= k) ∧ ∀ s, Along P k (next s)

theorem along_bind {p : Prog σ ι γ} {f : γ → Prog σ ι α} (hp : Along P (fun a => f a >>= k) p)
    (hf : ∀ a, Along P k (f a)) : Along P k (p >>= f) := by
  induction p with
  | done a => exact hf a
  | step l g next ih =>
    refine ⟨?_, fun s => ih s (hp.2 s)⟩
    have h := hp.1
    simp only [← bind_assoc] at h
    exact h

theorem Plain.along {l : ι} {I : σ → Prop} {p : Prog σ ι α} (h : Plain l I p)
    (hP : ∀ g next, P (.step l g next)) : Along P k p := by
  induction p with
  | done a => trivial
  | step l' g next ih =>
    obtain ⟨rfl, -, hn⟩ := h
    exact ⟨hP g _, fun s => ih s (hn s)⟩

end Tails

section Watched

variable {ω : Type}

def Prog.watch (view : ω → σ → σ) : Prog σ ι α → (ℕ → ω) → σ → List (ι × ω) × α × σ
  | .done a, _, s => ([], a, s)
  | .step l g next, see, s =>
    let r := (next (view (see 0) s)).watch view (fun n => see (n + 1)) (g (view (see 0) s))
    ((l, see 0) :: r.1, r.2)

def Ensures (view : ω → σ → σ) :
    Prog σ ι α → (List (ι × ω) → α → σ → Prop) → σ → Prop
  | .done a, Q, s => Q [] a s
  | .step l g next, Q, s =>
    ∀ o, Ensures view (next (view o s)) (fun os => Q ((l, o) :: os)) (g (view o s))

variable {view : ω → σ → σ} {Q Q' : List (ι × ω) → α → σ → Prop} {R : List (ι × ω) → β → σ → Prop}
  {s : σ}

theorem Ensures.watch {p : Prog σ ι α} (h : Ensures view p Q s) (see : ℕ → ω) :
    Q (p.watch view see s).1 (p.watch view see s).2.1 (p.watch view see s).2.2 := by
  induction p generalizing s see Q with
  | done a => exact h
  | step l g next ih => exact ih _ (h (see 0)) fun n => see (n + 1)

theorem Ensures.mono {p : Prog σ ι α} (h : Ensures view p Q s)
    (hQ : ∀ os a t, Q os a t → Q' os a t) : Ensures view p Q' s := by
  induction p generalizing s Q Q' with
  | done a => exact hQ [] a s h
  | step l g next ih => exact fun o => ih _ (h o) fun os => hQ ((l, o) :: os)

theorem Ensures.bind {p : Prog σ ι α} {f : α → Prog σ ι β} (h : Ensures view p Q s)
    (hf : ∀ os a t, Q os a t → Ensures view (f a) (fun os' => R (os ++ os')) t) :
    Ensures view (p >>= f) R s := by
  induction p generalizing s Q R with
  | done a => exact hf [] a s h
  | step l g next ih => exact fun o => ih _ (h o) fun os => hf ((l, o) :: os)

theorem ensures_done {a : α} (h : Q [] a s) : Ensures view (.done a) Q s := h

/-- What a plain program keeps, if what it sees has no part in it. -/
theorem Plain.ensures {l : ι} {I : σ → Prop} {p : Prog σ ι α} (hp : Plain l I p)
    (hview : ∀ o s, I s → I (view o s)) (hs : I s) :
    Ensures view p (fun os _ t => (∀ x ∈ os, x.1 = l) ∧ I t) s := by
  induction p generalizing s with
  | done a => exact ⟨nofun, hs⟩
  | step l' g next ih =>
    obtain ⟨rfl, hg, hn⟩ := hp
    refine fun o => (ih _ (hn _) (hg _ (hview o s hs))).mono fun os a t ht => ⟨?_, ht.2⟩
    intro x hx
    rcases List.mem_cons.mp hx with rfl | hx
    · rfl
    · exact ht.1 x hx

theorem watch_bind (p : Prog σ ι α) (f : α → Prog σ ι β) (see : ℕ → ω) (s : σ) :
    (p >>= f).watch view see s =
      ((p.watch view see s).1 ++
          ((f (p.watch view see s).2.1).watch view
            (fun n => see ((p.watch view see s).1.length + n)) (p.watch view see s).2.2).1,
        ((f (p.watch view see s).2.1).watch view
          (fun n => see ((p.watch view see s).1.length + n)) (p.watch view see s).2.2).2) := by
  induction p generalizing see s with
  | done a => simp [Prog.watch]
  | step l g next ih =>
    simp only [step_bind, Prog.watch, ih, List.length_cons, List.cons_append,
      Nat.add_right_comm _ 1]

theorem watch_cases (l : ι) (c : σ → Bool) (p q : Prog σ ι α) (see : ℕ → ω) (s : σ) :
    (test l c >>= fun b => if b then p else q).watch view see s =
      ((l, see 0) :: ((if c (view (see 0) s) then p else q).watch view (fun n => see (n + 1))
          (view (see 0) s)).1,
        ((if c (view (see 0) s) then p else q).watch view (fun n => see (n + 1))
          (view (see 0) s)).2) := rfl

theorem watch_seen {P : ω → Prop} {see : ℕ → ω} (p : Prog σ ι α) (hsee : ∀ n, P (see n)) :
    ∀ x ∈ (p.watch view see s).1, P x.2 := by
  induction p generalizing s see with
  | done a => exact nofun
  | step l g next ih =>
    intro x hx
    rcases List.mem_cons.mp hx with rfl | hx
    · exact hsee 0
    · exact ih _ (fun n => hsee (n + 1)) x hx

theorem watch_pairwise {P : ω → ω → Prop} {see : ℕ → ω} (p : Prog σ ι α)
    (hsee : ∀ m n, m < n → P (see m) (see n)) :
    (p.watch view see s).1.Pairwise fun x y => P x.2 y.2 := by
  induction p generalizing s see with
  | done a => exact List.Pairwise.nil
  | step l g next ih =>
    apply List.Pairwise.cons
    · exact watch_seen _ fun n => hsee 0 (n + 1) (Nat.succ_pos n)
    · exact ih _ fun m n hmn => hsee (m + 1) (n + 1) (Nat.succ_lt_succ hmn)

end Watched

structure Machine (σ ι : Type) where
  rest : Prog σ ι Bool
  state : σ

/-- What happens next: a step of the loop, or an event of its surroundings. -/
inductive Move (ε : Type) where
  | advance
  | event (e : ε)

/-- A loop that has ended stays where it is. -/
def Machine.advance (body : Prog σ ι Bool) : Machine σ ι → Machine σ ι
  | ⟨.step _ g next, s⟩ => ⟨next s, g s⟩
  | ⟨.done true, s⟩ => ⟨body, s⟩
  | ⟨.done false, s⟩ => ⟨.done false, s⟩

section Runs

variable (body : Prog σ ι Bool) (env : ε → σ → σ)

def Machine.move (m : Machine σ ι) : Move ε → Machine σ ι
  | .advance => m.advance body
  | .event e => { m with state := env e m.state }

def Machine.run (m : Machine σ ι) (moves : List (Move ε)) : Machine σ ι :=
  moves.foldl (Machine.move body env) m

variable {body env} {J : ι → σ → Prop} {R : Bool → σ → Prop} {m : Machine σ ι}
  {moves moves' : List (Move ε)}

theorem run_append : m.run body env (moves ++ moves') =
    (m.run body env moves).run body env moves' := List.foldl_append

theorem outline_run (hb : Outline J R body) (hm : Outline J R m.rest) :
    Outline J R (m.run body env moves).rest := by
  induction moves generalizing m with
  | nil => exact hm
  | cons x moves ih =>
    refine ih ?_
    rcases m with ⟨_ | ⟨l, g, next⟩, s⟩ <;> rcases x with _ | e
    · rename_i again
      cases again
      · exact hm
      · exact hb
    · exact hm
    · exact hm.2 s
    · exact hm

theorem along_run {P : Prog σ ι Bool → Prop} (hdone : ∀ again, P (.done again))
    (hb : Along P .done body) (hm : Along P .done m.rest) :
    P (m.run body env moves).rest := by
  induction moves generalizing m with
  | nil =>
    rcases m with ⟨_ | ⟨l, g, next⟩, s⟩
    · exact hdone _
    · have h := hm.1
      simp only [bind_done] at h
      exact h
  | cons x moves ih =>
    refine ih ?_
    rcases m with ⟨_ | ⟨l, g, next⟩, s⟩ <;> rcases x with _ | e
    · rename_i again
      cases again
      · exact hm
      · exact hb
    · exact hm
    · exact hm.2 s
    · exact hm

/-- The surroundings, where they act in a run, keep the assertions. -/
def Kept (env : ε → σ → σ) (J : ι → σ → Prop) (R : α → σ → Prop) (moves : List (Move ε)) :
    Prop :=
  ∀ e, .event e ∈ moves → ∀ s, (∀ l, J l s → J l (env e s)) ∧ ∀ a, R a s → R a (env e s)

theorem stands_run (hb : Outline J R body) (hagain : ∀ s, R true s → Stands J R body s)
    (henv : Kept env J R moves) (hm : Outline J R m.rest) (h : Stands J R m.rest m.state) :
    Stands J R (m.run body env moves).rest (m.run body env moves).state := by
  induction moves generalizing m with
  | nil => exact h
  | cons x moves ih =>
    have henv' : Kept env J R moves := fun e he => henv e (List.mem_cons_of_mem _ he)
    have hm' : Outline J R (m.run body env [x]).rest := outline_run hb hm
    refine ih henv' hm' ?_
    rcases m with ⟨_ | ⟨l, g, next⟩, s⟩ <;> rcases x with _ | e
    · rename_i again
      cases again
      · exact h
      · exact hagain s h
    · exact (henv e List.mem_cons_self s).2 _ h
    · exact hm.1 s h
    · exact (henv e List.mem_cons_self s).1 l h

end Runs

section Steadiness

variable {I : σ → Prop}

/-- With `I` before every step that is reached, each step leaves `I` true. -/
def Steady (I : σ → Prop) : Prog σ ι α → Prop
  | .done _ => True
  | .step _ g next => ∀ s, I s → I (g s) ∧ Steady I (next s)

theorem Steady.bind {p : Prog σ ι α} {f : α → Prog σ ι β} (hp : Steady I p)
    (hf : ∀ a, Steady I (f a)) : Steady I (p >>= f) := by
  induction p with
  | done a => exact hf a
  | step l g next ih => exact fun s hs => ⟨(hp s hs).1, ih s (hp s hs).2⟩

theorem Plain.steady {l : ι} {p : Prog σ ι α} (hp : Plain l I p) : Steady I p := by
  induction p with
  | done a => trivial
  | step l' g next ih => exact fun s hs => ⟨hp.2.1 s hs, ih s (hp.2.2 s)⟩

/-- Only the branch that `I` lets the test take matters. -/
theorem steady_test {l : ι} {c : σ → Bool} {b : Bool} {f : Bool → Prog σ ι α}
    (hc : ∀ s, I s → c s = b) (hf : Steady I (f b)) : Steady I (test l c >>= f) := by
  intro s hs
  refine ⟨hs, ?_⟩
  rw [← hc s hs] at hf
  exact hf

theorem steady_look (l : ι) (f : σ → α) : Steady I (look l f) := (plain_look l f).steady

theorem steady_act {l : ι} {g : σ → σ} (hg : ∀ s, I s → I (g s)) : Steady I (act l g) :=
  (plain_act hg).steady

theorem steady_cases {l : ι} {c : σ → Bool} {p q : Prog σ ι α} (hp : Steady I p)
    (hq : Steady I q) : Steady I (test l c >>= fun b => if b then p else q) := by
  apply (steady_look l c).bind
  intro b
  cases b
  · exact hq
  · exact hp

theorem Steady.watch {ω : Type} {view : ω → σ → σ} {p : Prog σ ι α} {s : σ} (hp : Steady I p)
    (hview : ∀ o s, I s → I (view o s)) (hs : I s) (see : ℕ → ω) :
    I (p.watch view see s).2.2 := by
  induction p generalizing s see with
  | done a => exact hs
  | step l g next ih =>
    obtain ⟨hI, hnext⟩ := hp _ (hview (see 0) s hs)
    exact ih _ hnext hI fun n => see (n + 1)

def Settles (I R : σ → Prop) : Prog σ ι α → Prop
  | .done _ => True
  | .step _ g next =>
    ∀ s, I s → Stands (fun _ => I) (fun _ => R) (next s) (g s) ∧ Settles I R (next s)

variable {R : σ → Prop}

theorem Steady.settles_bind {p : Prog σ ι α} {f : α → Prog σ ι β} (hp : Steady I p)
    (hf : ∀ a, Settles I R (f a))
    (hstart : ∀ a s, I s → Stands (fun _ => I) (fun _ => R) (f a) s) :
    Settles I R (p >>= f) := by
  induction p with
  | done a => exact hf a
  | step l g next ih =>
    intro s hs
    obtain ⟨hI, hnext⟩ := hp s hs
    refine ⟨?_, ih s hnext⟩
    have hstands (q : Prog σ ι α) : Stands (fun _ => I) (fun _ => R) (q >>= f) (g s) := by
      cases q with
      | done a => exact hstart a (g s) hI
      | step l' g' next' => exact hI
    exact hstands (next s)

theorem settles_test {l : ι} {c : σ → Bool} {b : Bool} {f : Bool → Prog σ ι α}
    (hc : ∀ s, I s → c s = b) (hf : Settles I R (f b))
    (hstart : ∀ s, I s → Stands (fun _ => I) (fun _ => R) (f b) s) :
    Settles I R (test l c >>= f) := by
  intro s hs
  rw [← hc s hs] at hf hstart
  exact ⟨hstart s hs, hf⟩

section Runs

variable {body : Prog σ ι Bool} {env : ε → σ → σ} {moves : List (Move ε)}

theorem steady_run {m : Machine σ ι} (hbody : Steady I body)
    (henv : ∀ e, .event e ∈ moves → ∀ s, I s → I (env e s)) (hm : Steady I m.rest)
    (h : I m.state) : I (m.run body env moves).state := by
  induction moves generalizing m with
  | nil => exact h
  | cons x moves ih =>
    have henv' : ∀ e, .event e ∈ moves → ∀ s, I s → I (env e s) :=
      fun e he => henv e (List.mem_cons_of_mem _ he)
    rcases x with _ | e
    · rcases m with ⟨_ | ⟨l, g, next⟩, s⟩
      · rename_i again
        cases again
        · exact ih henv' hm h
        · exact ih henv' hbody h
      · exact ih henv' (hm s h).2 (hm s h).1
    · exact ih henv' hm (henv e List.mem_cons_self m.state h)

theorem settles_run {G : σ → Prop} {p : Prog σ ι α} {k : α → Prog σ ι Bool} {s : σ}
    (hbody : Steady R body) (hk : ∀ a, Steady R (k a))
    (henv : ∀ e, .event e ∈ moves → ∀ s, (I s → I (env e s)) ∧ (R s → R (env e s)))
    (hI : ∀ s, I s → G s) (hR : ∀ s, R s → G s) (hp : Settles I R p)
    (hs : Stands (fun _ => I) (fun _ => R) p s) :
    G (Machine.run body env ⟨p >>= k, s⟩ moves).state := by
  have hrest {a : α} {s : σ} {moves' : List (Move ε)} (hmoves : ∀ x ∈ moves', x ∈ moves)
      (hs : R s) : G (Machine.run body env ⟨k a, s⟩ moves').state :=
    hR _ (steady_run hbody (fun e he s => (henv e (hmoves _ he) s).2) (hk a) hs)
  induction moves generalizing p s with
  | nil =>
    cases p with
    | done a => exact hR s hs
    | step l g next => exact hI s hs
  | cons x moves ih =>
    have henv' : ∀ e, .event e ∈ moves → ∀ s, (I s → I (env e s)) ∧ (R s → R (env e s)) :=
      fun e he => henv e (List.mem_cons_of_mem _ he)
    have hrest' {a : α} {s : σ} {moves' : List (Move ε)} (hmoves : ∀ x ∈ moves', x ∈ moves) :
        R s → G (Machine.run body env ⟨k a, s⟩ moves').state :=
      hrest fun y hy => List.mem_cons_of_mem _ (hmoves y hy)
    cases p with
    | done a => exact hrest (fun _ h => h) hs
    | step l g next =>
      rcases x with _ | e
      · exact ih henv' (hp s hs).2 (hp s hs).1 hrest'
      · exact ih henv' hp ((henv e List.mem_cons_self s).1 hs) hrest'

end Runs

end Steadiness

end Interference
