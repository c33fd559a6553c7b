import Mathlib.Order.Lattice
import Mathlib.Order.Basic
import Mathlib.Logic.Function.Basic
import Mathlib.Tactic.Common

/-!
# Release and acquire

Threads that share atomic locations and plain cells. A store leaves a message in the history of its
location, and a load may return any message that is no older than the one its thread has seen last. A
store that is a release takes along all its thread knows, and a load that is an acquire learns it; a
relaxed access does neither. Two accesses of a cell by different threads, one of them a write, are a
data race if the later one does not know of the earlier.

`θ` are the threads, `ι` the locations, `κ` the cells, `ν` and `τ` what they hold. Each location is to
be written by one thread only: a new message comes last.

## The rules

* `Coherent`: nothing is seen that is not there. Every access keeps it.
* `Owns`: the thread that writes a location has seen all its messages and knows what they know.
* `Knows`: what has to be known of a cell for an access that is no race
  (`Knows.not_writeRaces`, `Knows.not_readRaces`). What a thread knows before its access it knows after it
  (`knows_writeCell`, `knows_readCell`), passes on by a release (`getElem?_store`) and learns by an acquire
  (`message_le_load`).
-/

namespace Theory

universe u

/-- **What a thread knows of the others**: of each location the message it has seen last, and of each
thread how many of its steps have happened before. -/
abbrev View (θ ι : Type u) : Type u := (ι → ℕ) × (θ → ℕ)

/-- A message in the history of a location. -/
structure Message (θ ι ν : Type u) where
  /-- What has been stored. -/
  value : ν
  /-- What an acquire learns from it. -/
  view : View θ ι

/-- A memory, and what each thread knows of it. -/
structure WeakMemory (θ ι κ ν τ : Type u) where
  /-- The messages of each location, in their order. -/
  history : ι → List (Message θ ι ν)
  /-- What each thread knows. -/
  view : θ → View θ ι
  /-- The cells. -/
  cell : κ → τ
  /-- How many steps a thread had made with its last write of a cell. -/
  written : κ → θ → ℕ
  /-- How many with its last read. -/
  read : κ → θ → ℕ

namespace View

variable {θ ι : Type u}

/-- Nothing is known. -/
def nothing : View θ ι := (fun _ => 0, fun _ => 0)

theorem nothing_le (v : View θ ι) : nothing ≤ v := ⟨fun _ => Nat.zero_le _, fun _ => Nat.zero_le _⟩

variable [DecidableEq ι]

/-- A message of a location has been seen. -/
def see (v : View θ ι) (x : ι) (k : ℕ) : View θ ι := (Function.update v.1 x k, v.2)

@[simp] theorem seen_see_self (v : View θ ι) (x : ι) (k : ℕ) : (v.see x k).1 x = k := Function.update_self ..

theorem seen_see_of_ne {x y : ι} (hy : y ≠ x) (v : View θ ι) (k : ℕ) : (v.see x k).1 y = v.1 y :=
  Function.update_of_ne hy ..

theorem le_see {v : View θ ι} {x : ι} {k : ℕ} (h : v.1 x ≤ k) : v ≤ v.see x k :=
  ⟨le_update_iff.mpr ⟨h, fun _ _ => le_rfl⟩, le_rfl⟩

theorem see_mono {v w : View θ ι} (h : v ≤ w) (x : ι) (k : ℕ) : v.see x k ≤ w.see x k :=
  ⟨update_le_update_iff.mpr ⟨le_rfl, fun y _ => h.1 y⟩, h.2⟩

end View

namespace WeakMemory

variable {θ ι κ ν τ : Type u}

/-- All threads know of the first messages, and of no access. -/
def create (value : ι → ν) (cell : κ → τ) : WeakMemory θ ι κ ν τ where
  history x := [⟨value x, View.nothing⟩]
  view _ := View.nothing
  cell := cell
  written _ _ := 0
  read _ _ := 0

section Accesses

variable [DecidableEq θ] [DecidableEq ι] [DecidableEq κ]

/-- A thread makes a step, after which it knows `v`, and the step. -/
def advance (m : WeakMemory θ ι κ ν τ) (t : θ) (v : View θ ι) : WeakMemory θ ι κ ν τ :=
  { m with view := Function.update m.view t (v.1, Function.update v.2 t (v.2 t + 1)) }

/-- A load may return a message: it is no older than the one seen last. -/
def CanLoad (m : WeakMemory θ ι κ ν τ) (t : θ) (x : ι) (k : ℕ) (msg : Message θ ι ν) : Prop :=
  (m.view t).1 x ≤ k ∧ (m.history x)[k]? = some msg

/-- **A load** of the message `k`. -/
def load (m : WeakMemory θ ι κ ν τ) (t : θ) (x : ι) (acquire : Bool) (k : ℕ) (msg : Message θ ι ν) :
    WeakMemory θ ι κ ν τ :=
  m.advance t ((m.view t).see x k ⊔ if acquire then msg.view else View.nothing)

/-- A new message. -/
def append (m : WeakMemory θ ι κ ν τ) (x : ι) (msg : Message θ ι ν) : WeakMemory θ ι κ ν τ :=
  { m with history := Function.update m.history x (m.history x ++ [msg]) }

/-- **A store.** -/
def store (m : WeakMemory θ ι κ ν τ) (t : θ) (x : ι) (release : Bool) (value : ν) : WeakMemory θ ι κ ν τ :=
  let k := (m.history x).length
  let m := m.advance t ((m.view t).see x k)
  m.append x ⟨value, if release then m.view t else View.nothing.see x k⟩

/-- **A relaxed exchange** for the last message `msg`: its message hands on what that one has. -/
def exchange (m : WeakMemory θ ι κ ν τ) (t : θ) (x : ι) (msg : Message θ ι ν) (value : ν) :
    WeakMemory θ ι κ ν τ :=
  let k := (m.history x).length
  (m.advance t ((m.view t).see x k)).append x ⟨value, msg.view.see x k⟩

/-- **A read** of a cell. -/
def readCell (m : WeakMemory θ ι κ ν τ) (t : θ) (c : κ) : WeakMemory θ ι κ ν τ :=
  let m := m.advance t (m.view t)
  { m with read := Function.update m.read c (Function.update (m.read c) t ((m.view t).2 t)) }

/-- **A write** of a cell. -/
def writeCell (m : WeakMemory θ ι κ ν τ) (t : θ) (c : κ) (a : τ) : WeakMemory θ ι κ ν τ :=
  let m := m.advance t (m.view t)
  { m with
    cell := Function.update m.cell c a
    written := Function.update m.written c (Function.update (m.written c) t ((m.view t).2 t)) }

end Accesses

/-! ### Races -/

section Races

variable {m m' : WeakMemory θ ι κ ν τ} {t : θ} {c : κ} {v w : View θ ι}

/-- A read that the thread makes now is a race: there is a write that it does not know of. -/
def ReadRaces (m : WeakMemory θ ι κ ν τ) (t : θ) (c : κ) : Prop := ∃ u ≠ t, (m.view t).2 u < m.written c u

/-- A write that the thread makes now is a race. -/
def WriteRaces (m : WeakMemory θ ι κ ν τ) (t : θ) (c : κ) : Prop :=
  ∃ u ≠ t, (m.view t).2 u < m.written c u ∨ (m.view t).2 u < m.read c u

/-- **All accesses of a cell are known.** -/
def Knows (m : WeakMemory θ ι κ ν τ) (v : View θ ι) (c : κ) : Prop := ∀ u, m.written c u ≤ v.2 u ∧ m.read c u ≤ v.2 u

theorem Knows.mono (h : m.Knows v c) (hle : v ≤ w) : m.Knows w c := fun u =>
  ⟨(h u).1.trans (hle.2 u), (h u).2.trans (hle.2 u)⟩

theorem Knows.congr (h : m.Knows v c) (hwritten : m'.written c = m.written c) (hread : m'.read c = m.read c) :
    m'.Knows v c := fun u => by
  rw [hwritten, hread]
  exact h u

/-- Nothing has to be known of a cell that nobody has accessed. -/
theorem knows_create (value : ι → ν) (cell : κ → τ) (v : View θ ι) (c : κ) :
    (create value cell : WeakMemory θ ι κ ν τ).Knows v c := fun _ => ⟨Nat.zero_le _, Nat.zero_le _⟩

theorem Knows.not_readRaces (h : m.Knows (m.view t) c) : ¬ m.ReadRaces t c := by
  rintro ⟨u, -, hlt⟩
  exact absurd (h u).1 (Nat.not_le.mpr hlt)

theorem Knows.not_writeRaces (h : m.Knows (m.view t) c) : ¬ m.WriteRaces t c := by
  rintro ⟨u, -, hlt | hlt⟩
  · exact absurd (h u).1 (Nat.not_le.mpr hlt)
  · exact absurd (h u).2 (Nat.not_le.mpr hlt)

end Races

variable {m m' : WeakMemory θ ι κ ν τ} {t u : θ} {x y : ι} {c c' : κ} {v : View θ ι} {k : ℕ} {msg : Message θ ι ν}
  {value : ν} {a : τ} {acquire release : Bool}

/-! ### Coherence -/

/-- **Nothing is seen that is not there.** -/
structure Coherent (m : WeakMemory θ ι κ ν τ) : Prop where
  view_lt : ∀ t x, (m.view t).1 x < (m.history x).length
  message_lt : ∀ x, ∀ msg ∈ m.history x, ∀ y, msg.view.1 y < (m.history y).length

theorem coherent_create (value : ι → ν) (cell : κ → τ) : (create value cell : WeakMemory θ ι κ ν τ).Coherent where
  view_lt _ _ := Nat.one_pos
  message_lt _ msg hmsg _ := by
    obtain rfl := List.mem_singleton.mp hmsg
    exact Nat.one_pos

/-- **The thread that writes a location** has seen its last message, and knows what all have. -/
structure Owns (m : WeakMemory θ ι κ ν τ) (t : θ) (x : ι) : Prop where
  last : (m.view t).1 x + 1 = (m.history x).length
  knows : ∀ msg ∈ m.history x, msg.view ≤ m.view t

theorem owns_create (value : ι → ν) (cell : κ → τ) (t : θ) (x : ι) :
    (create value cell : WeakMemory θ ι κ ν τ).Owns t x where
  last := rfl
  knows msg hmsg := by
    obtain rfl := List.mem_singleton.mp hmsg
    exact le_rfl

/-- A step that leaves no message in the location. -/
theorem Owns.of_le (h : m.Owns t x) (hcoherent : m'.Coherent) (hle : m.view t ≤ m'.view t)
    (hhistory : m'.history x = m.history x) : m'.Owns t x where
  last := by
    have hlt := hcoherent.view_lt t x
    have hseen : (m.view t).1 x ≤ (m'.view t).1 x := hle.1 x
    have hlast := h.last
    rw [hhistory] at hlt ⊢
    omega
  knows msg hmsg := (h.knows msg (hhistory ▸ hmsg)).trans hle

/-- The owner loads the last message. -/
theorem Owns.load_last (h : m.Owns t x) (hload : m.CanLoad t x k msg) : k + 1 = (m.history x).length := by
  have hlt := (List.getElem?_eq_some_iff.mp hload.2).1
  have hseen := hload.1
  have hlast := h.last
  omega

/-! ### What is known -/

section Advance

variable [DecidableEq θ]

theorem view_advance_self (m : WeakMemory θ ι κ ν τ) (t : θ) (v : View θ ι) :
    (m.advance t v).view t = (v.1, Function.update v.2 t (v.2 t + 1)) := Function.update_self ..

theorem view_advance_of_ne (hu : u ≠ t) (v : View θ ι) : (m.advance t v).view u = m.view u :=
  Function.update_of_ne hu ..

theorem seen_advance (m : WeakMemory θ ι κ ν τ) (t : θ) (v : View θ ι) : ((m.advance t v).view t).1 = v.1 := by
  rw [view_advance_self]

theorem le_view_advance (m : WeakMemory θ ι κ ν τ) (t : θ) (v : View θ ι) : v ≤ (m.advance t v).view t := by
  rw [view_advance_self]
  exact ⟨le_rfl, le_update_iff.mpr ⟨Nat.le_succ _, fun _ _ => le_rfl⟩⟩

theorem clock_advance (hu : u ≠ t) (m : WeakMemory θ ι κ ν τ) (v : View θ ι) :
    ((m.advance t v).view t).2 u = v.2 u := by
  rw [view_advance_self]
  exact Function.update_of_ne hu ..

theorem clock_advance_pos (m : WeakMemory θ ι κ ν τ) (t : θ) (v : View θ ι) : 0 < ((m.advance t v).view t).2 t := by
  rw [view_advance_self]
  show 0 < Function.update v.2 t (v.2 t + 1) t
  rw [Function.update_self (β := fun _ => ℕ)]
  exact Nat.succ_pos _

/-- **Nothing is forgotten.** -/
theorem le_advance (h : m.view t ≤ v) (u : θ) : m.view u ≤ (m.advance t v).view u := by
  by_cases hu : u = t
  · subst hu
    exact h.trans (le_view_advance ..)
  · exact (view_advance_of_ne hu v).ge

theorem Coherent.advance (h : m.Coherent) (hv : ∀ y, v.1 y < (m.history y).length) : (m.advance t v).Coherent where
  view_lt u y := by
    by_cases hu : u = t
    · subst hu
      rw [seen_advance]
      exact hv y
    · rw [view_advance_of_ne hu]
      exact h.view_lt u y
  message_lt := h.message_lt

end Advance

section Append

variable [DecidableEq ι]

@[simp] theorem history_append_self (m : WeakMemory θ ι κ ν τ) (x : ι) (msg : Message θ ι ν) :
    (m.append x msg).history x = m.history x ++ [msg] := Function.update_self ..

theorem history_append_of_ne (hy : y ≠ x) (msg : Message θ ι ν) : (m.append x msg).history y = m.history y :=
  Function.update_of_ne hy ..

theorem length_append (m : WeakMemory θ ι κ ν τ) (x y : ι) (msg : Message θ ι ν) :
    ((m.append x msg).history y).length = (m.history y).length + if y = x then 1 else 0 := by
  by_cases hy : y = x
  · subst hy
    simp
  · simp [history_append_of_ne hy, hy]

/-- A view of what was there, and of the new message. -/
theorem see_lt {w : View θ ι} (hw : ∀ y, w.1 y < (m.history y).length) (msg : Message θ ι ν) (y : ι) :
    (w.see x (m.history x).length).1 y < ((m.append x msg).history y).length := by
  rw [length_append]
  by_cases hy : y = x
  · subst hy
    rw [View.seen_see_self, if_pos rfl]
    exact Nat.lt_succ_self _
  · rw [View.seen_see_of_ne hy, if_neg hy]
    exact hw y

end Append

section Cells

variable [DecidableEq θ] [DecidableEq κ]

theorem le_readCell (m : WeakMemory θ ι κ ν τ) (t : θ) (c : κ) (u : θ) : m.view u ≤ (m.readCell t c).view u :=
  le_advance le_rfl u

theorem le_writeCell (m : WeakMemory θ ι κ ν τ) (t : θ) (c : κ) (a : τ) (u : θ) :
    m.view u ≤ (m.writeCell t c a).view u :=
  le_advance le_rfl u

theorem clock_readCell (hu : u ≠ t) : ((m.readCell t c).view t).2 u = (m.view t).2 u := clock_advance hu m _

theorem clock_writeCell (hu : u ≠ t) : ((m.writeCell t c a).view t).2 u = (m.view t).2 u := clock_advance hu m _

/-- An access of a cell is remembered. -/
theorem read_readCell_pos (m : WeakMemory θ ι κ ν τ) (t : θ) (c : κ) : 0 < (m.readCell t c).read c t := by
  show 0 < Function.update m.read c (Function.update (m.read c) t (((m.advance t (m.view t)).view t).2 t)) c t
  rw [Function.update_self, Function.update_self (β := fun _ => ℕ)]
  exact clock_advance_pos ..

theorem written_writeCell_pos (m : WeakMemory θ ι κ ν τ) (t : θ) (c : κ) (a : τ) :
    0 < (m.writeCell t c a).written c t := by
  show 0 < Function.update m.written c (Function.update (m.written c) t (((m.advance t (m.view t)).view t).2 t)) c t
  rw [Function.update_self, Function.update_self (β := fun _ => ℕ)]
  exact clock_advance_pos ..

theorem read_readCell_of_ne (hne : c' ≠ c) : (m.readCell t c).read c' = m.read c' := Function.update_of_ne hne ..

theorem Coherent.readCell (h : m.Coherent) : (m.readCell t c).Coherent :=
  ⟨(h.advance (h.view_lt t)).view_lt, h.message_lt⟩

theorem Coherent.writeCell (h : m.Coherent) : (m.writeCell t c a).Coherent :=
  ⟨(h.advance (h.view_lt t)).view_lt, h.message_lt⟩

/-- **A thread knows of its own accesses.** -/
theorem knows_readCell (h : m.Knows (m.view t) c) : (m.readCell t c).Knows ((m.readCell t c).view t) c := by
  intro u
  refine ⟨(h u).1.trans ((le_readCell m t c t).2 u), ?_⟩
  show Function.update m.read c _ c u ≤ _
  rw [Function.update_self]
  by_cases hu : u = t
  · subst hu
    exact (Function.update_self (β := fun _ => ℕ) ..).le
  · rw [Function.update_of_ne hu]
    exact (h u).2.trans ((le_readCell m t c t).2 u)

theorem knows_writeCell (h : m.Knows (m.view t) c) : (m.writeCell t c a).Knows ((m.writeCell t c a).view t) c := by
  intro u
  refine ⟨?_, (h u).2.trans ((le_writeCell m t c a t).2 u)⟩
  show Function.update m.written c _ c u ≤ _
  rw [Function.update_self]
  by_cases hu : u = t
  · subst hu
    exact (Function.update_self (β := fun _ => ℕ) ..).le
  · rw [Function.update_of_ne hu]
    exact (h u).1.trans ((le_writeCell m t c a t).2 u)

/-- An access of another cell. -/
theorem Knows.readCell (h : m.Knows v c') (hne : c' ≠ c) : (m.readCell t c).Knows v c' :=
  h.congr rfl (read_readCell_of_ne hne)

theorem Knows.writeCell (h : m.Knows v c') (hne : c' ≠ c) : (m.writeCell t c a).Knows v c' :=
  h.congr (Function.update_of_ne hne ..) rfl

theorem cell_writeCell_self : (m.writeCell t c a).cell c = a := Function.update_self ..

theorem cell_writeCell_of_ne (hne : c' ≠ c) : (m.writeCell t c a).cell c' = m.cell c' := Function.update_of_ne hne ..

end Cells

section Locations

variable [DecidableEq θ] [DecidableEq ι]

theorem le_load (h : m.CanLoad t x k msg) (acquire : Bool) (u : θ) :
    m.view u ≤ (m.load t x acquire k msg).view u :=
  le_advance ((View.le_see h.1).trans le_sup_left) u

theorem le_seen_load : k ≤ ((m.load t x acquire k msg).view t).1 x := by
  rw [load, seen_advance]
  exact le_sup_of_le_left (View.seen_see_self ..).ge

/-- **An acquire** learns what the message has. -/
theorem message_le_load : msg.view ≤ (m.load t x true k msg).view t :=
  le_sup_right.trans (le_view_advance ..)

theorem le_store (h : m.Coherent) (t : θ) (x : ι) (release : Bool) (value : ν) (u : θ) :
    m.view u ≤ (m.store t x release value).view u :=
  le_advance (View.le_see (h.view_lt t x).le) u

theorem le_exchange (h : m.Coherent) (t : θ) (x : ι) (msg : Message θ ι ν) (value : ν) (u : θ) :
    m.view u ≤ (m.exchange t x msg value).view u :=
  le_advance (View.le_see (h.view_lt t x).le) u

/-- **A load hands nothing on** if it is relaxed, or if its message has nothing. -/
theorem clock_load (hu : u ≠ t) (h : acquire = true → msg.view.2 u = 0) :
    ((m.load t x acquire k msg).view t).2 u = (m.view t).2 u := by
  rw [load, clock_advance hu]
  cases acquire with
  | true => exact max_eq_left ((h rfl).trans_le (Nat.zero_le _))
  | false => exact max_eq_left (Nat.zero_le _)

theorem clock_store (hu : u ≠ t) : ((m.store t x release value).view t).2 u = (m.view t).2 u := clock_advance hu ..

theorem clock_exchange (hu : u ≠ t) : ((m.exchange t x msg value).view t).2 u = (m.view t).2 u := clock_advance hu ..

/-- **A relaxed store** hands nothing on. -/
theorem message_of_store (hmsg : msg ∈ (m.store t x false value).history x) : msg ∈ m.history x ∨ msg.view.2 u = 0 := by
  rw [store, history_append_self] at hmsg
  rcases List.mem_append.mp hmsg with hold | hnew
  · exact Or.inl hold
  · obtain rfl := List.mem_singleton.mp hnew
    exact Or.inr rfl

theorem length_history_store (m : WeakMemory θ ι κ ν τ) (t : θ) (x : ι) (release : Bool) (value : ν) :
    ((m.store t x release value).history x).length = (m.history x).length + 1 := by
  rw [store, history_append_self, List.length_append]
  rfl

/-- **A release** hands on all that its thread knows. -/
theorem getElem?_store (hmsg : ((m.store t x release value).history x)[k]? = some msg) :
    (m.history x)[k]? = some msg ∨ k = (m.history x).length ∧ msg.value = value ∧
      (release = true → msg.view = (m.store t x release value).view t) := by
  rw [store, history_append_self] at hmsg
  change (m.history x ++ [_])[k]? = some msg at hmsg
  rcases Nat.lt_or_ge k (m.history x).length with hlt | hge
  · exact Or.inl ((List.getElem?_append_left hlt).symm.trans hmsg)
  · rw [List.getElem?_append_right hge] at hmsg
    obtain ⟨hk, rfl⟩ := List.getElem?_eq_some_iff.mp hmsg
    rw [List.length_singleton] at hk
    refine Or.inr ⟨Nat.le_antisymm (Nat.le_of_sub_eq_zero (Nat.lt_one_iff.mp hk)) hge, ?_, ?_⟩
    · rw [List.getElem_singleton]
    · rintro rfl
      rw [List.getElem_singleton]
      rfl

theorem history_store_of_ne (hy : y ≠ x) : (m.store t x release value).history y = m.history y :=
  Function.update_of_ne hy ..

theorem history_exchange_of_ne (hy : y ≠ x) : (m.exchange t x msg value).history y = m.history y :=
  Function.update_of_ne hy ..

theorem Coherent.load (h : m.Coherent) (hload : m.CanLoad t x k msg) : (m.load t x acquire k msg).Coherent := by
  refine h.advance fun y => max_lt ?_ ?_
  · by_cases hy : y = x
    · subst hy
      rw [View.seen_see_self]
      exact (List.getElem?_eq_some_iff.mp hload.2).1
    · rw [View.seen_see_of_ne hy]
      exact h.view_lt t y
  · cases acquire with
    | true => exact h.message_lt x msg (List.mem_of_getElem? hload.2) y
    | false => exact Nat.zero_lt_of_lt (h.view_lt t y)

/-- A step that leaves a message. -/
theorem Coherent.post (h : m.Coherent) (hmsg : ∀ y, msg.view.1 y < ((m.append x msg).history y).length) :
    ((m.advance t ((m.view t).see x (m.history x).length)).append x msg).Coherent where
  view_lt u y := by
    by_cases hu : u = t
    · subst hu
      show ((m.advance u _).view u).1 y < _
      rw [seen_advance]
      exact see_lt (h.view_lt u) msg y
    · show ((m.advance t _).view u).1 y < _
      rw [view_advance_of_ne hu]
      exact Nat.lt_of_lt_of_le (h.view_lt u y) (by rw [length_append]; exact Nat.le_add_right ..)
  message_lt z msg' hmsg' y := by
    have hor : msg' ∈ m.history z ∨ msg' = msg := by
      by_cases hz : z = x
      · subst hz
        rw [history_append_self, List.mem_append, List.mem_singleton] at hmsg'
        exact hmsg'
      · rw [history_append_of_ne hz] at hmsg'
        exact Or.inl hmsg'
    rcases hor with hold | rfl
    · exact Nat.lt_of_lt_of_le (h.message_lt z msg' hold y) (by rw [length_append]; exact Nat.le_add_right ..)
    · exact hmsg y

theorem Coherent.store (h : m.Coherent) : (m.store t x release value).Coherent := by
  refine h.post fun y => ?_
  cases release with
  | true =>
    show ((m.advance t _).view t).1 y < _
    rw [seen_advance]
    exact see_lt (h.view_lt t) _ y
  | false => exact see_lt (fun z => Nat.zero_lt_of_lt (h.view_lt t z)) _ y

theorem Coherent.exchange (h : m.Coherent) (hmsg : msg ∈ m.history x) : (m.exchange t x msg value).Coherent :=
  h.post (see_lt (h.message_lt x msg hmsg) _)

theorem Owns.store (h : m.Owns t x) : (m.store t x release value).Owns t x where
  last := by
    show ((m.advance t _).view t).1 x + 1 = _
    rw [seen_advance, View.seen_see_self, length_history_store]
  knows msg hmsg := by
    have hview : (m.view t).see x (m.history x).length ≤ (m.store t x release value).view t := le_view_advance ..
    have hle : m.view t ≤ (m.view t).see x (m.history x).length := View.le_see (h.last ▸ Nat.le_succ _)
    rw [WeakMemory.store, history_append_self] at hmsg
    rcases List.mem_append.mp hmsg with hold | hnew
    · exact (h.knows msg hold).trans (hle.trans hview)
    · obtain rfl := List.mem_singleton.mp hnew
      cases release with
      | true => exact le_rfl
      | false => exact (View.see_mono (View.nothing_le _) x _).trans hview

end Locations

end WeakMemory

end Theory
