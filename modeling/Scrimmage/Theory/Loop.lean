import Mathlib.Data.Nat.Init

/-!
# Loops

A `while` or `for` loop with early exits, as a function of its body. One turn of the
body either goes round again in a new state or leaves with a result; `run body n s`
takes at most `n` turns from `s`. A loop that leaves does so for every large enough
`n` and always with the same result (`run_mono`), so the number of turns allowed is
not part of what a loop computes.

## The rules

* `run_sat`: an invariant of one turn is an invariant of every number of turns, and
  what a turn promises on leaving the loop promises on leaving.
* `run_exits`: with a measure that decreases on every turn, the loop leaves.
* `exit_cases`: a loop that left, left on some turn, from a state it had reached;
  `turns_of_exit`: and that is the turn it took last.
* `run_throwing_error`, `run_throwing_of_thrown`: a loop that an exception can leave is the
  loop without it up to the turn on which the exception is thrown; `run_throwing_ok`: if none
  is thrown it leaves as that one does.
* `run_logged`: keeping a log of what each turn does changes nothing else.
-/

namespace Theory

universe u v w

/-- What one turn of a loop does. -/
inductive Turn (σ : Type u) (ρ : Type v) where
  /-- Go round again, in this state. -/
  | again (s : σ)
  /-- Leave, with this result. -/
  | exit (r : ρ)
  deriving DecidableEq

namespace Loop

variable {σ : Type u} {ρ : Type v}

/-- At most `n` turns of the loop `body` from `s`. -/
def run (body : σ → Turn σ ρ) : ℕ → σ → Turn σ ρ
  | 0, s => .again s
  | n + 1, s =>
    match body s with
    | .again s' => run body n s'
    | .exit r => .exit r

/-- What the loop leaves with within `n` turns; `stuck` of the state it is in if it
has not left by then. -/
def result (body : σ → Turn σ ρ) (stuck : σ → ρ) (n : ℕ) (s : σ) : ρ :=
  match run body n s with
  | .again s' => stuck s'
  | .exit r => r

@[simp] theorem run_zero (body : σ → Turn σ ρ) (s : σ) : run body 0 s = .again s := rfl

theorem run_of_again {body : σ → Turn σ ρ} {s s' : σ} (h : body s = .again s') (n : ℕ) :
    run body (n + 1) s = run body n s' := by
  simp only [run, h]

theorem run_of_exit {body : σ → Turn σ ρ} {s : σ} {r : ρ} (h : body s = .exit r) (n : ℕ) :
    run body (n + 1) s = .exit r := by
  simp only [run, h]

theorem result_of_exit {body : σ → Turn σ ρ} {stuck : σ → ρ} {n : ℕ} {s : σ} {r : ρ}
    (h : run body n s = .exit r) : result body stuck n s = r := by
  simp only [result, h]

/-- `m + n` turns are `m` turns and, if the loop is still going, `n` more. -/
theorem run_add (body : σ → Turn σ ρ) (m n : ℕ) (s : σ) :
    run body (m + n) s =
      match run body m s with
      | .again s' => run body n s'
      | .exit r => .exit r := by
  induction m generalizing s with
  | zero => simp
  | succ m ih =>
    rw [Nat.add_right_comm]
    cases hb : body s with
    | again s' => rw [run_of_again hb, run_of_again hb, ih]
    | exit r => rw [run_of_exit hb, run_of_exit hb]

/-- One more turn, at the end. -/
theorem run_succ_of_again {body : σ → Turn σ ρ} {n : ℕ} {s s' : σ}
    (h : run body n s = .again s') : run body (n + 1) s = body s' := by
  rw [run_add, h]
  cases hb : body s' with
  | again s'' => exact run_of_again hb 0
  | exit r => exact run_of_exit hb 0

/-- **A loop that has left stays left**: allowing more turns changes nothing. -/
theorem run_mono {body : σ → Turn σ ρ} {m n : ℕ} {s : σ} {r : ρ} (hmn : m ≤ n)
    (h : run body m s = .exit r) : run body n s = .exit r := by
  obtain ⟨k, rfl⟩ := Nat.exists_eq_add_of_le hmn
  rw [run_add, h]

/-- A loop that is still going after `n + 1` turns was still going after `n`. -/
theorem again_of_succ {body : σ → Turn σ ρ} {n : ℕ} {s s'' : σ}
    (h : run body (n + 1) s = .again s'') :
    ∃ s', run body n s = .again s' ∧ body s' = .again s'' := by
  cases hn : run body n s with
  | again s' => exact ⟨s', rfl, by rw [← run_succ_of_again hn, h]⟩
  | exit r => rw [run_mono (Nat.le_succ n) hn] at h; cases h

/-- A loop that left, left on some turn, from a state it had reached. -/
theorem exit_cases {body : σ → Turn σ ρ} {n : ℕ} {s : σ} {r : ρ} (h : run body n s = .exit r) :
    ∃ m < n, ∃ s', run body m s = .again s' ∧ body s' = .exit r := by
  induction n with
  | zero => cases h
  | succ n ih =>
    cases hn : run body n s with
    | again s' => exact ⟨n, Nat.lt_succ_self n, s', hn, by rw [← run_succ_of_again hn, h]⟩
    | exit r' =>
      have hr : run body (n + 1) s = .exit r' := run_mono (Nat.le_succ n) hn
      rw [h] at hr
      cases hr
      obtain ⟨m, hm, hs⟩ := ih hn
      exact ⟨m, Nat.lt_succ_of_lt hm, hs⟩

/-- How many turns the loop takes, of at most `n`: the last is the one on which it leaves. -/
def turns (body : σ → Turn σ ρ) : ℕ → σ → ℕ
  | 0, _ => 0
  | n + 1, s =>
    match body s with
    | .again s' => turns body n s' + 1
    | .exit _ => 1

/-- **The last turn** of a loop that leaves is the one on which it does. -/
theorem turns_of_exit {body : σ → Turn σ ρ} {n : ℕ} {s : σ} {r : ρ} (h : run body n s = .exit r) :
    ∃ m s', turns body n s = m + 1 ∧ run body m s = .again s' ∧ body s' = .exit r := by
  induction n generalizing s with
  | zero => cases h
  | succ n ih =>
    cases hb : body s with
    | again s' =>
      rw [run_of_again hb] at h
      obtain ⟨m, s'', hturns, hrun, hexit⟩ := ih h
      exact ⟨m + 1, s'', by simp only [turns, hb, hturns], by rw [run_of_again hb, hrun], hexit⟩
    | exit r' =>
      rw [run_of_exit hb] at h
      exact ⟨0, s, by simp only [turns, hb], rfl, hb.trans h⟩

/-! ### Invariants -/

/-- `I` of the next state if the loop goes round again, `Q` of the result if it leaves. -/
def Sat (I : σ → Prop) (Q : ρ → Prop) : Turn σ ρ → Prop
  | .again s => I s
  | .exit r => Q r

@[simp] theorem sat_again {I : σ → Prop} {Q : ρ → Prop} {s : σ} : Sat I Q (.again s) ↔ I s := Iff.rfl

@[simp] theorem sat_exit {I : σ → Prop} {Q : ρ → Prop} {r : ρ} : Sat I Q (.exit r) ↔ Q r := Iff.rfl

/-- What two rules say of a turn, together. -/
theorem Sat.and {I I' : σ → Prop} {Q Q' : ρ → Prop} {t : Turn σ ρ} (h : Sat I Q t) (h' : Sat I' Q' t) :
    Sat (fun s => I s ∧ I' s) (fun r => Q r ∧ Q' r) t := by
  cases t with
  | again s => exact ⟨h, h'⟩
  | exit r => exact ⟨h, h'⟩

theorem Sat.mono {I I' : σ → Prop} {Q Q' : ρ → Prop} {t : Turn σ ρ} (h : Sat I Q t)
    (hI : ∀ s, I s → I' s) (hQ : ∀ r, Q r → Q' r) : Sat I' Q' t := by
  cases t with
  | again s => exact hI s h
  | exit r => exact hQ r h

/-- **The invariant rule.** -/
theorem run_sat {body : σ → Turn σ ρ} {I : σ → Prop} {Q : ρ → Prop}
    (hbody : ∀ s, I s → Sat I Q (body s)) (n : ℕ) {s : σ} (hs : I s) : Sat I Q (run body n s) := by
  induction n generalizing s with
  | zero => exact hs
  | succ n ih =>
    have hb := hbody s hs
    cases h : body s with
    | again s' => rw [run_of_again h]; rw [h] at hb; exact ih hb
    | exit r => rw [run_of_exit h]; rw [h] at hb; exact hb

/-- **The total-correctness rule**: a turn that goes round again keeps `I` and lowers
`μ`, so the loop leaves within `μ s + 1` turns, and what it leaves with satisfies `Q`. -/
theorem run_exits {body : σ → Turn σ ρ} {I : σ → Prop} {Q : ρ → Prop} (μ : σ → ℕ)
    (hbody : ∀ s, I s → Sat (fun s' => I s' ∧ μ s' < μ s) Q (body s)) {n : ℕ} {s : σ} (hs : I s)
    (hn : μ s < n) : ∃ r, run body n s = .exit r ∧ Q r := by
  induction n generalizing s with
  | zero => exact absurd hn (Nat.not_lt_zero _)
  | succ n ih =>
    have hb := hbody s hs
    cases h : body s with
    | again s' =>
      rw [h] at hb
      rw [run_of_again h]
      exact ih hb.1 (Nat.lt_of_lt_of_le hb.2 (Nat.le_of_lt_succ hn))
    | exit r =>
      rw [h] at hb
      exact ⟨r, run_of_exit h n, hb⟩

/-! ### Exceptions -/

section Throwing

variable {ε : Type w} {body : σ → Turn σ ρ} {thrown : σ → Option ε} {m n : ℕ} {s s' : σ} {x : ε}

/-- One turn of the loop `body` where an exception may leave it: with what `thrown` gives. -/
def throwing (body : σ → Turn σ ρ) (thrown : σ → Option ε) (s : σ) : Turn σ (Except ε ρ) :=
  match thrown s with
  | some x => .exit (.error x)
  | none =>
    match body s with
    | .again s' => .again s'
    | .exit r => .exit (.ok r)

theorem throwing_of_thrown (h : thrown s = some x) : throwing body thrown s = .exit (.error x) := by
  simp only [throwing, h]

theorem throwing_of_again (h : thrown s = none) (hb : body s = .again s') :
    throwing body thrown s = .again s' := by
  simp only [throwing, h, hb]

/-- A turn that no exception leaves is one of the loop without it. -/
theorem again_of_throwing (h : throwing body thrown s = .again s') : body s = .again s' := by
  unfold throwing at h
  cases ht : thrown s with
  | some x => simp [ht] at h
  | none =>
    cases hb : body s with
    | again s'' => simpa [ht, hb] using h
    | exit r => simp [ht, hb] at h

/-- Nor are any number of turns. -/
theorem run_again_of_throwing (h : run (throwing body thrown) n s = .again s') : run body n s = .again s' := by
  induction n generalizing s' with
  | zero =>
    cases h
    rfl
  | succ n ih =>
    obtain ⟨t, hrun, hturn⟩ := again_of_succ h
    rw [run_succ_of_again (ih hrun)]
    exact again_of_throwing hturn

/-- **An exception leaves a loop** from a state that the loop without it reaches. -/
theorem run_throwing_error (h : run (throwing body thrown) n s = .exit (.error x)) :
    ∃ m < n, ∃ t, run body m s = .again t ∧ thrown t = some x := by
  obtain ⟨m, hm, t, hrun, hturn⟩ := exit_cases h
  refine ⟨m, hm, t, run_again_of_throwing hrun, ?_⟩
  unfold throwing at hturn
  cases ht : thrown t with
  | some y =>
    simp only [ht] at hturn
    cases hturn
    rfl
  | none => cases hb : body t <;> simp [ht, hb] at hturn

/-- **A loop that no exception leaves** leaves as the loop without it does. -/
theorem run_throwing_ok {r : ρ} (h : run (throwing body thrown) n s = .exit (.ok r)) : run body n s = .exit r := by
  obtain ⟨m, hm, t, hrun, hturn⟩ := exit_cases h
  have hbody : body t = .exit r := by
    unfold throwing at hturn
    cases ht : thrown t with
    | some y => simp [ht] at hturn
    | none =>
      cases hb : body t with
      | again s' => simp [ht, hb] at hturn
      | exit r' => simpa [ht, hb] using hturn
  refine run_mono hm ?_
  rw [run_succ_of_again (run_again_of_throwing hrun), hbody]

/-- **An exception that is thrown leaves the loop**, if no other has before. -/
theorem run_throwing_of_thrown (hrun : run body m s = .again s') (hthrown : thrown s' = some x)
    (hbefore : ∀ k < m, ∀ t, run body k s = .again t → thrown t = none) (hmn : m < n) :
    run (throwing body thrown) n s = .exit (.error x) := by
  have hagain (k : ℕ) : k ≤ m → ∀ t, run body k s = .again t → run (throwing body thrown) k s = .again t := by
    induction k with
    | zero =>
      intro _ t ht
      cases ht
      rfl
    | succ k ih =>
      intro hk t ht
      obtain ⟨t', hrun', hturn⟩ := again_of_succ ht
      rw [run_succ_of_again (ih (Nat.le_of_succ_le hk) t' hrun')]
      exact throwing_of_again (hbefore k hk t' hrun') hturn
  have hexit : run (throwing body thrown) (m + 1) s = .exit (.error x) := by
    rw [run_succ_of_again (hagain m (Nat.le_refl m) s' hrun)]
    exact throwing_of_thrown hthrown
  exact run_mono hmn hexit

end Throwing

/-! ### Logs -/

section Logged

variable {ε : Type w} {body : σ → Turn σ ρ} {log : σ → List ε} {n : ℕ} {s s' : σ} {r : ρ} {l : List ε}

/-- One turn of the loop `body`, with what it does written down in a log. -/
def logged (body : σ → Turn σ ρ) (log : σ → List ε) (st : σ × List ε) : Turn (σ × List ε) (ρ × List ε) :=
  match body st.1 with
  | .again s => .again (s, st.2 ++ log st.1)
  | .exit r => .exit (r, st.2 ++ log st.1)

theorem logged_of_again (h : body s = .again s') : logged body log (s, l) = .again (s', l ++ log s) := by
  simp only [logged, h]

theorem logged_of_exit (h : body s = .exit r) : logged body log (s, l) = .exit (r, l ++ log s) := by
  simp only [logged, h]

/-- **A log changes nothing**: a loop that keeps one leaves when the loop without it does, with
the same result. -/
theorem run_logged (log : σ → List ε) (h : run body n s = .exit r) (l : List ε) :
    ∃ l', run (logged body log) n (s, l) = .exit (r, l') := by
  induction n generalizing s l with
  | zero => cases h
  | succ n ih =>
    cases hb : body s with
    | again s' =>
      rw [run_of_again hb] at h
      rw [run_of_again (logged_of_again hb)]
      exact ih h _
    | exit r' =>
      rw [run_of_exit hb] at h
      cases h
      exact ⟨_, run_of_exit (logged_of_exit hb) n⟩

end Logged

end Loop

end Theory
