import Battman.Interference

/-! A register that a program changes only by loading it and storing a function of the value
in the next step. What its surroundings do between the two is overwritten. -/
namespace Interference
open Prog

variable {σ ι ε α β γ : Type}

section Programs

variable (reg : σ → γ) (put : γ → σ → σ) (F : (γ → γ) → Prop)

/-- Each step leaves the register alone, but for stores that follow the load of their value. -/
inductive Modifies : Prog σ ι α → Prop
  | done (a : α) : Modifies (.done a)
  | step {l : ι} {g : σ → σ} {next : σ → Prog σ ι α} (hg : ∀ s, reg (g s) = reg s)
      (hn : ∀ s, Modifies (next s)) : Modifies (.step l g next)
  | modify {l l' : ι} {f : γ → γ} {next : σ → σ → Prog σ ι α} (hf : F f)
      (hn : ∀ s t, Modifies (next s t)) :
      Modifies (.step l id fun s => .step l' (put (f (reg s))) (next s))

variable {reg put F}

theorem Modifies.bind {p : Prog σ ι α} {k : α → Prog σ ι β} (hp : Modifies reg put F p)
    (hk : ∀ a, Modifies reg put F (k a)) : Modifies reg put F (p >>= k) := by
  induction hp with
  | done a => exact hk a
  | step hg _ ih => exact .step hg ih
  | modify hf _ ih => exact .modify hf ih

theorem modifies_look (l : ι) (f : σ → α) : Modifies reg put F (look l f) :=
  .step (fun _ => rfl) fun _ => .done _

theorem modifies_act {l : ι} {g : σ → σ} (hg : ∀ s, reg (g s) = reg s) :
    Modifies reg put F (act l g) := .step hg fun _ => .done _

theorem modifies_cases {l : ι} {c : σ → Bool} {p q : Prog σ ι α} (hp : Modifies reg put F p)
    (hq : Modifies reg put F q) :
    Modifies reg put F (test l c >>= fun b => if b then p else q) := by
  apply (modifies_look l c).bind
  intro b
  cases b
  · exact hq
  · exact hp

end Programs

section Runs

variable {reg : σ → γ} {put : γ → σ → σ} {F : (γ → γ) → Prop} {I : γ → Prop}
  {Q : γ → γ → Prop} {body : Prog σ ι Bool} {env : ε → σ → σ} {m : Machine σ ι}
  {moves : List (Move ε)}

def AtStore (put : γ → σ → σ) (m : Machine σ ι) (x : γ) : Prop :=
  ∃ l next, m.rest = .step l (put x) next

/-- The register satisfies `I`, and a value about to be stored is in `Q` with it. -/
def Linked (reg : σ → γ) (put : γ → σ → σ) (F : (γ → γ) → Prop) (I : γ → Prop)
    (Q : γ → γ → Prop) (m : Machine σ ι) : Prop :=
  I (reg m.state) ∧
    (Modifies reg put F m.rest ∨
      ∃ l x next, m.rest = .step l (put x) next ∧ (∀ s, Modifies reg put F (next s)) ∧
        Q x (reg m.state))

/-- What loads, stores and the surroundings must keep. -/
structure Links (F : (γ → γ) → Prop) (I : γ → Prop) (Q : γ → γ → Prop) : Prop where
  load : ∀ f x, F f → I x → Q (f x) x
  store : ∀ x y, Q x y → I x

theorem linked_run (hput : ∀ x s, reg (put x s) = x) (hbody : Modifies reg put F body)
    (hQ : Links F I Q)
    (henv : ∀ e, .event e ∈ moves → ∀ s, (I (reg s) → I (reg (env e s))) ∧
      ∀ x, Q x (reg s) → Q x (reg (env e s)))
    (hm : Linked reg put F I Q m) : Linked reg put F I Q (m.run body env moves) := by
  induction moves generalizing m with
  | nil => exact hm
  | cons x moves ih =>
    refine ih (fun e he => henv e (List.mem_cons_of_mem x he)) ?_
    obtain ⟨rest, s⟩ := m
    obtain ⟨hI, hrest⟩ := hm
    cases x with
    | event e =>
      refine ⟨(henv e List.mem_cons_self s).1 hI, hrest.imp_right ?_⟩
      rintro ⟨l, x, next, he, hn, hx⟩
      exact ⟨l, x, next, he, hn, (henv e List.mem_cons_self s).2 x hx⟩
    | advance =>
      rcases hrest with h | ⟨l, x, next, he, hn, hx⟩
      · cases h with
        | done again =>
          cases again with
          | false => exact ⟨hI, Or.inl (.done false)⟩
          | true => exact ⟨hI, Or.inl hbody⟩
        | step hg hn => exact ⟨(hg s).symm ▸ hI, Or.inl (hn s)⟩
        | modify hf hn => exact ⟨hI, Or.inr ⟨_, _, _, rfl, hn s, hQ.load _ _ hf hI⟩⟩
      · subst he
        refine ⟨?_, Or.inl (hn s)⟩
        change I (reg (put x s))
        rw [hput]
        exact hQ.store x _ hx

end Runs

end Interference
