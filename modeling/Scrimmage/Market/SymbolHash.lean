import Scrimmage.Market.Order

/-!
# What the symbol hash reads

The memory that `hashSymbol` reads. The condition of its loop, `symbol[i] != 0 && i < 16`,
reads the character before it looks at the index.

## What is proved

* `hashReads_eq`: the indices read, from the number of characters of the symbol.
* `hash_inside_iff`: the hash stays in the field, and does all else it is to do, exactly when
  there is a NUL in the field. `hash_reads_past` is a symbol of sixteen characters.
-/

namespace Scrimmage.Market

open Theory

/-- The indices one turn of the loop reads: the condition reads one, and the body the same
one again. -/
def turnReads (symbol : ℕ → Int8) (st : ℕ × UInt64) : List ℕ :=
  match hashTurn symbol st with
  | .again _ => [st.1, st.1]
  | .exit _ => [st.1]

/-- `hashSymbol`, with the indices of `symbol` that it reads, in order. -/
def hashSymbolReads (symbol : ℕ → Int8) : ℕ × List ℕ :=
  let (hash, reads) := Loop.result (Loop.logged (hashTurn symbol) (turnReads symbol)) (fun st => (st.1.2, st.2)) 17
    ((0, 14695981039346656037), [])
  (hash.toNat % 1024, reads)

/-- The indices `hashSymbol` reads. -/
def hashReads (symbol : ℕ → Int8) : List ℕ := (hashSymbolReads symbol).2

/-- **Two memories have one symbol**: they agree up to and including the first NUL of the
field, or in the whole field. -/
def SameSymbol (symbol symbol' : ℕ → Int8) : Prop :=
  ∀ i < 16, (∀ j < i, symbol j ≠ 0) → symbol' i = symbol i

/-- **The hash does what it is to do**, and reads the symbol's field only. -/
structure HashesInside (symbol : ℕ → Int8) : Prop where
  inside : ∀ i ∈ hashReads symbol, i < 16
  /-- The loop leaves, and what it leaves with is the hash. -/
  terminates : ∃ n hash, Loop.run (hashTurn symbol) n (0, 14695981039346656037) = .exit hash ∧
    hashSymbol symbol = hash.toNat % 1024
  lt : hashSymbol symbol < 1024
  same : ∀ symbol', SameSymbol symbol symbol' → hashSymbol symbol' = hashSymbol symbol

section Reads

variable {symbol symbol' : ℕ → Int8}

/-- The hash does not depend on its being watched. -/
theorem hashSymbolReads_fst (symbol : ℕ → Int8) : (hashSymbolReads symbol).1 = hashSymbol symbol := by
  have hrun := run_hashTurn symbol 16 0 14695981039346656037 rfl
  obtain ⟨reads, hlogged⟩ := Loop.run_logged (turnReads symbol) hrun []
  rw [hashSymbolReads, Loop.result_of_exit hlogged, hashSymbol, Loop.result_of_exit hrun]

/-- From index `i` on, the loop reads each character twice, and once what is behind them. -/
theorem run_logged_hashTurn (symbol : ℕ → Int8) (k : ℕ) : ∀ i h l, i + k = 16 →
    ∃ h', Loop.run (Loop.logged (hashTurn symbol) (turnReads symbol)) (k + 1) ((i, h), l) =
      .exit (h', l ++ (List.range' i (((List.range' i k).map symbol).takeWhile (· ≠ 0)).length).flatMap
        (fun j => [j, j]) ++ [i + (((List.range' i k).map symbol).takeWhile (· ≠ 0)).length]) := by
  induction k with
  | zero =>
    intro i h l hi
    have hexit : hashTurn symbol (i, h) = .exit h := by
      simp [hashTurn]
      omega
    refine ⟨h, Loop.run_of_exit ?_ 0⟩
    rw [Loop.logged_of_exit hexit]
    simp [turnReads, hexit]
  | succ k ih =>
    intro i h l hi
    rw [List.range'_succ, List.map_cons, List.takeWhile_cons]
    by_cases hc : symbol i = 0
    · have hexit : hashTurn symbol (i, h) = .exit h := by simp [hashTurn, hc]
      refine ⟨h, Loop.run_of_exit ?_ _⟩
      rw [Loop.logged_of_exit hexit]
      simp [turnReads, hexit, hc]
    · have hagain : hashTurn symbol (i, h) = .again (i + 1, hashChar h (symbol i)) := by
        simp [hashTurn, hc]
        omega
      obtain ⟨h', hrun⟩ := ih (i + 1) (hashChar h (symbol i)) (l ++ turnReads symbol (i, h)) (by omega)
      refine ⟨h', ?_⟩
      rw [Loop.run_of_again (Loop.logged_of_again hagain), hrun]
      simp [turnReads, hagain, hc, List.range'_succ]
      omega

/-- **What is read**: each character of the symbol, twice, and what is behind the last. -/
theorem hashReads_eq (symbol : ℕ → Int8) :
    hashReads symbol =
      (List.range (symbolChars symbol).length).flatMap (fun j => [j, j]) ++ [(symbolChars symbol).length] := by
  obtain ⟨h', hrun⟩ := run_logged_hashTurn symbol 16 0 14695981039346656037 [] rfl
  rw [hashReads, hashSymbolReads, Loop.result_of_exit hrun, symbolChars, List.range_eq_range', List.range_eq_range']
  simp

/-- A symbol shorter than the field is one with a NUL in the field. -/
theorem length_symbolChars_lt_iff (symbol : ℕ → Int8) : (symbolChars symbol).length < 16 ↔ ∃ i < 16, symbol i = 0 := by
  have hprefix : symbolChars symbol <+: (List.range 16).map symbol := List.takeWhile_prefix _
  have hle : (symbolChars symbol).length ≤ 16 := by simpa using hprefix.length_le
  have hfull : (symbolChars symbol).length = 16 ↔ ∀ c ∈ (List.range 16).map symbol, c ≠ 0 := by
    have hself : symbolChars symbol = (List.range 16).map symbol ↔ ∀ c ∈ (List.range 16).map symbol, c ≠ 0 := by
      simp [symbolChars, List.takeWhile_eq_self_iff]
    rw [← hself]
    constructor
    · exact fun hlen => hprefix.eq_of_length (by simpa using hlen)
    · exact fun heq => by simpa using congrArg List.length heq
  constructor
  · intro hlt
    by_contra hnone
    refine absurd (hfull.mpr fun c hc hzero => hnone ?_) (by omega)
    obtain ⟨i, hi, rfl⟩ := List.mem_map.mp hc
    exact ⟨i, List.mem_range.mp hi, hzero⟩
  · rintro ⟨i, hi, hzero⟩
    have hne : (symbolChars symbol).length ≠ 16 := fun heq =>
      hfull.mp heq (symbol i) (List.mem_map_of_mem (List.mem_range.mpr hi)) hzero
    omega

/-- From index `i` on, two memories that agree up to and including the next NUL have the same
characters. -/
theorem takeWhile_congr (k : ℕ) : ∀ i,
    (∀ j, i ≤ j → j < i + k → (∀ j', i ≤ j' → j' < j → symbol j' ≠ 0) → symbol' j = symbol j) →
    ((List.range' i k).map symbol').takeWhile (· ≠ 0) = ((List.range' i k).map symbol).takeWhile (· ≠ 0) := by
  induction k with
  | zero => exact fun _ _ => rfl
  | succ k ih =>
    intro i h
    have hi : symbol' i = symbol i := h i le_rfl (by omega) fun j' hj hj' => absurd hj (by omega)
    rw [List.range'_succ, List.map_cons, List.map_cons, List.takeWhile_cons, List.takeWhile_cons, hi]
    by_cases hc : symbol i = 0
    · simp [hc]
    · have htail := ih (i + 1) fun j hj hjk hbefore => h j (by omega) (by omega) fun j' hj' hlt => by
        rcases Nat.eq_or_lt_of_le hj' with rfl | hlt'
        · exact hc
        · exact hbefore j' hlt' hlt
      rw [htail]

/-- Memories with one symbol have the same characters. -/
theorem symbolChars_congr (h : SameSymbol symbol symbol') : symbolChars symbol' = symbolChars symbol := by
  rw [symbolChars, symbolChars, List.range_eq_range']
  exact takeWhile_congr 16 0 fun j _ hj hbefore => h j (by omega) fun j' hlt => hbefore j' (Nat.zero_le _) hlt

/-- **When the hash stays in the symbol's field**: for every content of the field, and of the
memory behind it, `hashSymbol` ends with a number of a book, the same for every memory with
that symbol; and it reads the indices `0` to `15` only, exactly when there is a NUL among
the sixteen characters. -/
theorem hash_inside_iff (symbol : ℕ → Int8) : HashesInside symbol ↔ ∃ i < 16, symbol i = 0 := by
  rw [← length_symbolChars_lt_iff]
  constructor
  · intro h
    apply h.inside
    rw [hashReads_eq]
    simp
  · intro hlt
    refine ⟨fun i hi => ?_, ⟨17, _, run_hashTurn symbol 16 0 _ rfl, ?_⟩, hashSymbol_lt symbol, fun symbol' h => ?_⟩
    · rw [hashReads_eq] at hi
      have : i ≤ (symbolChars symbol).length := by
        simp at hi
        omega
      omega
    · rw [hashSymbol_eq, symbolChars, List.range_eq_range']
    · rw [hashSymbol_eq, hashSymbol_eq, symbolChars_congr h]

/-- **A symbol of sixteen characters**: the last thing read is the character behind the field. -/
theorem hash_reads_past : (∀ i < 16, (65 : Int8) ≠ 0) ∧ 16 ∈ hashReads (fun _ => 65) ∧
    ¬ HashesInside fun _ => 65 := by
  have hread : 16 ∈ hashReads fun _ => 65 := by decide +kernel
  exact ⟨fun _ _ => by decide, hread, fun h => absurd (h.inside 16 hread) (by decide)⟩

end Reads

end Scrimmage.Market
