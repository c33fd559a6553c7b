import Scrimmage.Theory.Loop
import Mathlib.Data.List.TakeWhile

/-!
# Orders and the symbol hash

`Order` of `MatchingEngine.h`, and `MatchingEngine::hashSymbol`, which chooses an
order's book. The function takes a pointer, so it is modelled on the memory the pointer
points into: the first 16 characters are the symbol field, what follows is not.

`hashSymbol_eq` says what the loop computes: a fold over the symbol's characters, those
of the field before its first NUL (`symbolChars`), and nothing else.
-/

namespace Scrimmage.Market

open Theory

/-- `Order`. Quantities and ids are `uint64_t`, prices `int64_t`, the symbol `char[16]`. -/
structure Order where
  /-- `orderId`. -/
  orderId : UInt64
  /-- `price`. -/
  price : Int64
  /-- `quantity`. -/
  quantity : UInt64
  /-- `isBuy`. -/
  isBuy : Bool
  /-- `symbol[16]`. -/
  symbol : Vector Int8 16
  deriving DecidableEq

instance : Inhabited Order := ⟨⟨0, 0, 0, false, Vector.replicate 16 0⟩⟩

/-- The test of the matching loop: `incoming` may trade at `resting`'s price. -/
def Order.crosses (incoming resting : Order) : Bool :=
  (incoming.isBuy && decide (incoming.price ≥ resting.price)) ||
    (!incoming.isBuy && decide (incoming.price ≤ resting.price))

/-- `quantity -= q`. -/
def Order.sub (o : Order) (q : UInt64) : Order := { o with quantity := o.quantity - q }

@[simp] theorem Order.sub_quantity (o : Order) (q : UInt64) : (o.sub q).quantity = o.quantity - q := rfl

@[simp] theorem Order.sub_isBuy (o : Order) (q : UInt64) : (o.sub q).isBuy = o.isBuy := rfl

/-! ### The hash -/

/-- One round of the loop body: `hash ^= static_cast<size_t>(c); hash *= 1099511628211ull`.
A `char` is signed, so the conversion extends its sign. -/
def hashChar (hash : UInt64) (c : Int8) : UInt64 := (hash ^^^ c.toInt64.toUInt64) * 1099511628211

/-- One turn of `for (i = 0; symbol[i] != 0 && i < 16; ++i)`, in the state `(i, hash)`. -/
def hashTurn (symbol : ℕ → Int8) (st : ℕ × UInt64) : Turn (ℕ × UInt64) UInt64 :=
  if symbol st.1 ≠ 0 ∧ st.1 < 16 then .again (st.1 + 1, hashChar st.2 (symbol st.1)) else .exit st.2

/-- `hashSymbol`. The loop makes at most 16 rounds and then leaves. -/
def hashSymbol (symbol : ℕ → Int8) : ℕ :=
  (Loop.result (hashTurn symbol) Prod.snd 17 (0, 14695981039346656037)).toNat % 1024

/-- The characters of a symbol: those of the 16-byte field before its first NUL. -/
def symbolChars (symbol : ℕ → Int8) : List Int8 := ((List.range 16).map symbol).takeWhile (· ≠ 0)

/-- From index `i` on, the loop folds the characters that are left. -/
theorem run_hashTurn (symbol : ℕ → Int8) (k : ℕ) : ∀ i h, i + k = 16 →
    Loop.run (hashTurn symbol) (k + 1) (i, h) =
      .exit ((((List.range' i k).map symbol).takeWhile (· ≠ 0)).foldl hashChar h) := by
  induction k with
  | zero =>
    intro i h hi
    exact Loop.run_of_exit (by simp [hashTurn]; omega) 0
  | succ k ih =>
    intro i h hi
    rw [List.range'_succ, List.map_cons, List.takeWhile_cons]
    by_cases hc : symbol i = 0
    · have hb : hashTurn symbol (i, h) = .exit h := by simp [hashTurn, hc]
      rw [Loop.run_of_exit hb]
      simp [hc]
    · have hb : hashTurn symbol (i, h) = .again (i + 1, hashChar h (symbol i)) := by
        simp [hashTurn, hc]; omega
      rw [Loop.run_of_again hb, ih (i + 1) _ (by omega)]
      simp [hc]

/-- **What the hash reads**: the symbol's characters, in order, and nothing past them. -/
theorem hashSymbol_eq (symbol : ℕ → Int8) :
    hashSymbol symbol = ((symbolChars symbol).foldl hashChar 14695981039346656037).toNat % 1024 := by
  unfold hashSymbol symbolChars
  rw [Loop.result_of_exit (run_hashTurn symbol 16 0 _ rfl), List.range_eq_range']

theorem hashSymbol_lt (symbol : ℕ → Int8) : hashSymbol symbol < 1024 := Nat.mod_lt _ (by decide)

/-- The memory at `order.symbol`. The 16 bytes of the field are the array's; the byte
after them is padding, on which nothing depends. -/
def Order.symbolMem (o : Order) (i : ℕ) : Int8 := o.symbol[i]?.getD 0

/-- The characters of an order's symbol. -/
def Order.chars (o : Order) : List Int8 := symbolChars o.symbolMem

/-- The book `_books[hashSymbol(order.symbol)]`. -/
def Order.bookIndex (o : Order) : Fin 1024 := ⟨hashSymbol o.symbolMem, hashSymbol_lt _⟩

@[simp] theorem Order.sub_chars (o : Order) (q : UInt64) : (o.sub q).chars = o.chars := rfl

@[simp] theorem Order.sub_bookIndex (o : Order) (q : UInt64) : (o.sub q).bookIndex = o.bookIndex := rfl

/-- Orders of one symbol have one book. -/
theorem Order.bookIndex_of_chars {o o' : Order} (h : o.chars = o'.chars) : o.bookIndex = o'.bookIndex := by
  apply Fin.ext
  show hashSymbol o.symbolMem = hashSymbol o'.symbolMem
  rw [hashSymbol_eq, hashSymbol_eq]
  rw [show symbolChars o.symbolMem = symbolChars o'.symbolMem from h]

end Scrimmage.Market
