import Scrimmage.Theory.Loop

/-!
# Framing a stream

A decoder takes items, one after the other, from input that arrives in chunks. `Decoder`
has what makes that independent of the chunks: input only ever adds to what is there
(`extend_append`), an item that can be taken is not changed by more input
(`next_extend`), and taking one makes progress (`next_size`).

## The rules

* `Drains.unique`, `drain_exits`: taking items until there is none ends, in one way.
* `Drains.extend`: draining, more input, and draining again is draining all of it.
* `Drains.chunks`: **so the chunks do not matter**: what is taken chunk by chunk is what is
  taken from their concatenation.
* `Drains.encoded`: encoded items are drained to the items.
-/

namespace Theory

universe u v w

/-- A decoder of items of type `γ` from input of type `β`, with states `σ`. -/
structure Decoder (σ : Type u) (β : Type v) (γ : Type w) where
  /-- The next item, and the state without it. -/
  next : σ → Option (γ × σ)
  /-- The state with more input. -/
  extend : σ → List β → σ
  /-- How much input there is. -/
  size : σ → ℕ
  extend_nil (s : σ) : extend s [] = s
  extend_append (s : σ) (l l' : List β) : extend (extend s l) l' = extend s (l ++ l')
  next_extend {s s' : σ} {c : γ} (l : List β) : next s = some (c, s') → next (extend s l) = some (c, extend s' l)
  next_size {s s' : σ} {c : γ} : next s = some (c, s') → size s' < size s

namespace Decoder

variable {σ : Type u} {β : Type v} {γ : Type w} (D : Decoder σ β γ)

/-- Taking items until there is none takes `cs`, and leaves the last state. -/
inductive Drains : σ → List γ → σ → Prop where
  /-- There is none. -/
  | done {s : σ} : D.next s = none → Drains s [] s
  /-- One is taken, and then others. -/
  | take {s s' s'' : σ} {c : γ} {cs : List γ} : D.next s = some (c, s') → Drains s' cs s'' → Drains s (c :: cs) s''

/-- One turn of the loop that takes items, which collects them. -/
def drainTurn (st : σ × List γ) : Turn (σ × List γ) (List γ × σ) :=
  match D.next st.1 with
  | none => .exit (st.2, st.1)
  | some (c, s) => .again (s, st.2 ++ [c])

/-- Taking items until there is none. The loop is left within one turn more than there is
input (`drain_exits`). -/
def drain (s : σ) : List γ × σ := Loop.result D.drainTurn (fun st => (st.2, st.1)) (D.size s + 1) (s, [])

variable {D} {s s' s'' : σ} {cs cs' : List γ}

/-- **The loop ends**, and does what `Drains` says. -/
theorem drain_exits (n : ℕ) : ∀ (s : σ) (acc : List γ), D.size s < n →
    ∃ cs s', Loop.run D.drainTurn n (s, acc) = .exit (acc ++ cs, s') ∧ D.Drains s cs s' := by
  induction n with
  | zero => exact fun s acc h => absurd h (Nat.not_lt_zero _)
  | succ n ih =>
    intro s acc h
    cases hnext : D.next s with
    | none =>
      refine ⟨[], s, ?_, .done hnext⟩
      rw [List.append_nil]
      exact Loop.run_of_exit (by simp [drainTurn, hnext]) n
    | some p =>
      obtain ⟨c, s'⟩ := p
      have hsize := D.next_size hnext
      obtain ⟨cs, s'', hrun, hdrains⟩ := ih s' (acc ++ [c]) (by omega)
      refine ⟨c :: cs, s'', ?_, .take hnext hdrains⟩
      have hturn : D.drainTurn (s, acc) = .again (s', acc ++ [c]) := by simp [drainTurn, hnext]
      rw [Loop.run_of_again hturn, hrun]
      simp

theorem drain_drains (s : σ) : D.Drains s (D.drain s).1 (D.drain s).2 := by
  obtain ⟨cs, s', hrun, hdrains⟩ := drain_exits (D.size s + 1) s [] (Nat.lt_succ_self _)
  have hdrain : D.drain s = (cs, s') := Loop.result_of_exit hrun
  rw [hdrain]
  exact hdrains

namespace Drains

/-- What is taken is determined. -/
theorem unique (h : D.Drains s cs s') (h' : D.Drains s cs' s'') : cs = cs' ∧ s' = s'' := by
  induction h generalizing cs' s'' with
  | done hnext =>
    cases h' with
    | done => exact ⟨rfl, rfl⟩
    | take hnext' => rw [hnext] at hnext'; cases hnext'
  | take hnext _ ih =>
    cases h' with
    | done hnext' => rw [hnext] at hnext'; cases hnext'
    | take hnext' h' =>
      rw [hnext] at hnext'
      cases hnext'
      obtain ⟨rfl, rfl⟩ := ih h'
      exact ⟨rfl, rfl⟩

/-- Nothing is left to take. -/
theorem next_eq_none (h : D.Drains s cs s') : D.next s' = none := by
  induction h with
  | done hnext => exact hnext
  | take _ _ ih => exact ih

/-- **Draining, more input, and draining again** is draining with the input there at once. -/
theorem extend {l : List β} (h : D.Drains s cs s') (h' : D.Drains (D.extend s' l) cs' s'') :
    D.Drains (D.extend s l) (cs ++ cs') s'' := by
  induction h with
  | done => exact h'
  | take hnext _ ih => exact .take (D.next_extend l hnext) (ih h')

/-- What is taken chunk by chunk, each chunk being drained before the next arrives. -/
inductive Chunks (D : Decoder σ β γ) : σ → List (List β) → List γ → σ → Prop where
  /-- No chunk. -/
  | nil (s : σ) : Chunks D s [] [] s
  /-- A chunk, and then others. -/
  | cons {s s' s'' : σ} {l : List β} {ls : List (List β)} {cs cs' : List γ} :
    D.Drains (D.extend s l) cs s' → Chunks D s' ls cs' s'' → Chunks D s (l :: ls) (cs ++ cs') s''

/-- **The chunks do not matter.** -/
theorem chunks {ls : List (List β)} (hs : D.next s = none) (h : Chunks D s ls cs s') :
    D.Drains (D.extend s ls.flatten) cs s' := by
  induction h with
  | nil s =>
    rw [List.flatten_nil, D.extend_nil]
    exact .done hs
  | cons hdrains _ ih =>
    rw [List.flatten_cons, ← D.extend_append]
    exact hdrains.extend (ih hdrains.next_eq_none)

/-- **Encoded items are drained to the items**, if an encoded item is taken whatever
comes after it. -/
theorem encoded {encode : γ → List β} (hs : D.next s = none) {cs : List γ}
    (henc : ∀ c ∈ cs, ∀ l, D.next (D.extend s (encode c ++ l)) = some (c, D.extend s l)) :
    D.Drains (D.extend s (cs.flatMap encode)) cs s := by
  induction cs with
  | nil =>
    rw [List.flatMap_nil, D.extend_nil]
    exact .done hs
  | cons c cs ih =>
    rw [List.flatMap_cons]
    exact .take (henc c (List.mem_cons_self ..) _) (ih fun c' hc' => henc c' (List.mem_cons_of_mem c hc'))

end Drains

end Decoder

end Theory
