import Mathlib.Order.BoundedOrder.Lattice
import Mathlib.Order.Nat
import Mathlib.Logic.Function.Basic

/-!
# Release and acquire

A memory in which a load may return an old value.  An atomic keeps all the stores that were
made to it, and a load reads any of them that the thread does not know to be out of date.
What a thread knows is a view; it is published with a store that releases, and learnt by a
load of that store that acquires.  Besides the atomics there are plain cells.  Two accesses
to a cell, one of them a write, race unless the thread of the second knows of the first.

The stores of an atomic are ordered as they are made: an atomic is meant for one writer.
The choice of what a load reads is an argument of the load, its `age`.

* `Wf`: nobody knows more than has happened.
* `Authored`: the stores of an atomic publish what its owner knows, so the owner learns
  nothing by loading it.
* `Transfers`: every store of an atomic carries an access of its owner, and whoever knows of
  the store knows of the access.
* `Blind`: a thread that never learns of the accesses of another one.
-/

namespace MatchingEngine
namespace WeakMemory

variable {κ ℓ ν V W : Type*}

/-- `std::memory_order` of a load. -/
inductive LoadOrder where
  | relaxed
  | acquire
  deriving DecidableEq

/-- `std::memory_order` of a store. -/
inductive StoreOrder where
  | relaxed
  | release
  deriving DecidableEq

/-- How far every thread is known to have come, and every atomic. -/
abbrev View (κ ℓ : Type*) := (κ → ℕ) × (ℓ → ℕ)

namespace View

/-- The last access of each thread that is known. -/
abbrev clock (v : View κ ℓ) : κ → ℕ := v.1

/-- The last store of each atomic that is known. -/
abbrev front (v : View κ ℓ) : ℓ → ℕ := v.2

/-- An access, by its thread and the clock of that thread, is known. -/
def knows (v : View κ ℓ) (access : κ × ℕ) : Bool := decide (access.2 ≤ v.clock access.1)

/-- An access. -/
def access [DecidableEq κ] (t : κ) (k : ℕ) : View κ ℓ := (Function.update ⊥ t k, ⊥)

/-- A store. -/
def store [DecidableEq ℓ] (a : ℓ) (i : ℕ) : View κ ℓ := (⊥, Function.update ⊥ a i)

end View

/-- What a load of a message with a view learns. -/
def LoadOrder.learns : LoadOrder → View κ ℓ → View κ ℓ
  | .relaxed, _ => ⊥
  | .acquire, v => v

/-- What a store by a thread with a view publishes. -/
def StoreOrder.publishes : StoreOrder → View κ ℓ → View κ ℓ
  | .relaxed, _ => ⊥
  | .release, v => v

/-- A store of an atomic, and what it publishes. -/
structure Message (κ ℓ V : Type*) where
  value : V
  view : View κ ℓ

/-- A plain cell: its last write, if there was one, and the reads since. -/
structure Cell (κ W : Type*) where
  value : W
  write : Option (κ × ℕ)
  reads : List (κ × ℕ)

/-- Atomics, cells, and what the threads know.  The stores of the atomic `a` are those up
to number `last a`. -/
structure Memory (κ ℓ ν V W : Type*) where
  messages : ℓ → ℕ → Message κ ℓ V
  last : ℓ → ℕ
  cells : ν → Cell κ W
  views : κ → View κ ℓ
  raced : Bool

namespace Memory

/-- A memory as it is constructed, before there are threads. -/
def new (atomics : ℓ → V) (cells : ν → W) : Memory κ ℓ ν V W where
  messages a _ := ⟨atomics a, ⊥⟩
  last _ := 0
  cells c := ⟨cells c, none, []⟩
  views _ := ⊥
  raced := false

/-- The last value stored in an atomic. -/
def current (m : Memory κ ℓ ν V W) (a : ℓ) : V := (m.messages a (m.last a)).value

/-- The store that a load reads: the one `age` stores back, or the last that the thread
knows. -/
def seen (m : Memory κ ℓ ν V W) (t : κ) (a : ℓ) (age : ℕ) : ℕ :=
  max ((m.views t).front a) (m.last a - age)

variable [DecidableEq κ] [DecidableEq ℓ] [DecidableEq ν]

/-- A thread learns. -/
def learn (m : Memory κ ℓ ν V W) (t : κ) (v : View κ ℓ) : Memory κ ℓ ν V W :=
  { m with views := Function.update m.views t (m.views t ⊔ v) }

/-- `load`. -/
def load (m : Memory κ ℓ ν V W) (order : LoadOrder) (t : κ) (a : ℓ) (age : ℕ) :
    V × Memory κ ℓ ν V W :=
  let i := m.seen t a age
  ((m.messages a i).value, m.learn t (order.learns (m.messages a i).view ⊔ View.store a i))

/-- `store`. -/
def store (m : Memory κ ℓ ν V W) (order : StoreOrder) (t : κ) (a : ℓ) (value : V) :
    Memory κ ℓ ν V W :=
  let i := m.last a + 1
  let view := order.publishes (m.views t ⊔ View.store a i)
  { m.learn t (View.store a i) with
    messages := Function.update m.messages a (Function.update (m.messages a) i ⟨value, view⟩)
    last := Function.update m.last a i }

/-- A read of a cell. -/
def read (m : Memory κ ℓ ν V W) (t : κ) (c : ν) : W × Memory κ ℓ ν V W :=
  let k := (m.views t).clock t + 1
  ((m.cells c).value,
    { m.learn t (View.access t k) with
      cells := Function.update m.cells c { m.cells c with reads := (t, k) :: (m.cells c).reads }
      raced := m.raced || !(m.cells c).write.all (m.views t).knows })

/-- A write of a cell. -/
def write (m : Memory κ ℓ ν V W) (t : κ) (c : ν) (value : W) : Memory κ ℓ ν V W :=
  let k := (m.views t).clock t + 1
  { m.learn t (View.access t k) with
    cells := Function.update m.cells c ⟨value, some (t, k), []⟩
    raced := m.raced || !(m.cells c).write.all (m.views t).knows ||
      !(m.cells c).reads.all (m.views t).knows }

end Memory

/-! ## Views -/

namespace View

@[simp] theorem clock_sup (v w : View κ ℓ) (t : κ) :
    (v ⊔ w).clock t = max (v.clock t) (w.clock t) := rfl

@[simp] theorem front_sup (v w : View κ ℓ) (a : ℓ) :
    (v ⊔ w).front a = max (v.front a) (w.front a) := rfl

@[simp] theorem clock_access_self [DecidableEq κ] (t : κ) (k : ℕ) :
    (access t k : View κ ℓ).clock t = k := Function.update_self _ _ _

@[simp] theorem front_access [DecidableEq κ] (t : κ) (k : ℕ) (a : ℓ) :
    (access t k : View κ ℓ).front a = 0 := rfl

theorem clock_access_of_ne [DecidableEq κ] {t u : κ} (h : u ≠ t) (k : ℕ) :
    (access t k : View κ ℓ).clock u = 0 := Function.update_of_ne h _ _

@[simp] theorem front_store_self [DecidableEq ℓ] (a : ℓ) (i : ℕ) :
    (store a i : View κ ℓ).front a = i := Function.update_self _ _ _

@[simp] theorem clock_store [DecidableEq ℓ] (a : ℓ) (i : ℕ) (t : κ) :
    (store a i : View κ ℓ).clock t = 0 := rfl

theorem front_store_of_ne [DecidableEq ℓ] {a b : ℓ} (h : b ≠ a) (i : ℕ) :
    (store a i : View κ ℓ).front b = 0 := Function.update_of_ne h _ _

theorem access_le_iff [DecidableEq κ] {t : κ} {k : ℕ} {v : View κ ℓ} :
    access t k ≤ v ↔ k ≤ v.clock t := by
  refine ⟨fun h => ?_, fun h => ⟨update_le_iff.mpr ⟨h, fun _ _ => bot_le⟩, bot_le⟩⟩
  have hclock : (access t k : View κ ℓ).clock t ≤ v.clock t := h.1 t
  rwa [clock_access_self] at hclock

theorem store_le_iff [DecidableEq ℓ] {a : ℓ} {i : ℕ} {v : View κ ℓ} :
    store a i ≤ v ↔ i ≤ v.front a := by
  refine ⟨fun h => ?_, fun h => ⟨bot_le, update_le_iff.mpr ⟨h, fun _ _ => bot_le⟩⟩⟩
  have hfront : (store a i : View κ ℓ).front a ≤ v.front a := h.2 a
  rwa [front_store_self] at hfront

end View

theorem LoadOrder.learns_le (order : LoadOrder) (v : View κ ℓ) : order.learns v ≤ v := by
  cases order with
  | relaxed => exact bot_le
  | acquire => exact le_refl v

theorem StoreOrder.publishes_le (order : StoreOrder) (v : View κ ℓ) : order.publishes v ≤ v := by
  cases order with
  | relaxed => exact bot_le
  | release => exact le_refl v

/-! ## Nobody knows more than has happened -/

namespace Memory

/-- What has happened. -/
def present (m : Memory κ ℓ ν V W) : View κ ℓ := (fun t => (m.views t).clock t, m.last)

/-- Nobody knows more than has happened, and no store knows of a later one. -/
structure Wf (m : Memory κ ℓ ν V W) : Prop where
  views : ∀ t, m.views t ≤ m.present
  messages : ∀ a i, (m.messages a i).view ≤ m.present
  own : ∀ a i, (m.messages a i).view.front a ≤ i

theorem wf_new (atomics : ℓ → V) (cells : ν → W) :
    (new atomics cells : Memory κ ℓ ν V W).Wf where
  views _ := bot_le
  messages _ _ := bot_le
  own _ _ := bot_le

variable {m : Memory κ ℓ ν V W}

theorem Wf.front_le (h : m.Wf) (t : κ) (a : ℓ) : (m.views t).front a ≤ m.last a := (h.views t).2 a

theorem Wf.seen_le (h : m.Wf) (t : κ) (a : ℓ) (age : ℕ) : m.seen t a age ≤ m.last a :=
  max_le (h.front_le t a) (Nat.sub_le _ _)

/-- The last store can be read. -/
theorem Wf.seen_zero (h : m.Wf) (t : κ) (a : ℓ) : m.seen t a 0 = m.last a :=
  max_eq_right (h.front_le t a)

theorem Wf.load_zero [DecidableEq κ] [DecidableEq ℓ] (h : m.Wf) (order : LoadOrder) (t : κ)
    (a : ℓ) : (m.load order t a 0).1 = m.current a := by
  rw [load, h.seen_zero, current]

theorem front_le_seen (m : Memory κ ℓ ν V W) (t : κ) (a : ℓ) (age : ℕ) :
    (m.views t).front a ≤ m.seen t a age :=
  le_max_left _ _

/-- Who knows the last store reads it. -/
theorem seen_of_front {t : κ} {a : ℓ} (h : (m.views t).front a = m.last a) (age : ℕ) :
    m.seen t a age = m.last a := by
  rw [seen, h]
  exact max_eq_left (Nat.sub_le _ _)

/-- What happens adds to what has happened. -/
theorem Wf.mono (h : m.Wf) {m' : Memory κ ℓ ν V W} (hpresent : m.present ≤ m'.present)
    (hviews : ∀ t, m'.views t = m.views t ∨ m'.views t ≤ m'.present)
    (hmessages : ∀ a i, m'.messages a i = m.messages a i ∨
      (m'.messages a i).view ≤ m'.present ∧ (m'.messages a i).view.front a ≤ i) : m'.Wf where
  views t := by
    rcases hviews t with heq | hle
    · rw [heq]
      exact (h.views t).trans hpresent
    · exact hle
  messages a i := by
    rcases hmessages a i with heq | ⟨hle, -⟩
    · rw [heq]
      exact (h.messages a i).trans hpresent
    · exact hle
  own a i := by
    rcases hmessages a i with heq | ⟨-, hle⟩
    · rw [heq]
      exact h.own a i
    · exact hle

variable [DecidableEq κ] [DecidableEq ℓ] [DecidableEq ν] {t u : κ} {a : ℓ}

omit [DecidableEq ℓ] [DecidableEq ν] in
@[simp] theorem learn_self (m : Memory κ ℓ ν V W) (t : κ) (v : View κ ℓ) :
    (m.learn t v).views t = m.views t ⊔ v := Function.update_self _ _ _

omit [DecidableEq ℓ] [DecidableEq ν] in
theorem learn_of_ne (m : Memory κ ℓ ν V W) (h : u ≠ t) (v : View κ ℓ) :
    (m.learn t v).views u = m.views u := Function.update_of_ne h _ _

omit [DecidableEq ℓ] [DecidableEq ν] in
theorem views_le_learn (m : Memory κ ℓ ν V W) (t : κ) (v : View κ ℓ) (u : κ) :
    m.views u ≤ (m.learn t v).views u := by
  by_cases h : u = t
  · subst h
    rw [learn_self]
    exact le_sup_left
  · rw [learn_of_ne m h]

omit [DecidableEq ν] in
theorem views_le_load (m : Memory κ ℓ ν V W) (order : LoadOrder) (t : κ) (a : ℓ) (age : ℕ)
    (u : κ) : m.views u ≤ (m.load order t a age).2.views u := views_le_learn m t _ u

omit [DecidableEq ν] in
theorem views_le_store (m : Memory κ ℓ ν V W) (order : StoreOrder) (t : κ) (a : ℓ) (value : V)
    (u : κ) : m.views u ≤ (m.store order t a value).views u := views_le_learn m t _ u

omit [DecidableEq ℓ] in
theorem views_le_read (m : Memory κ ℓ ν V W) (t : κ) (c : ν) (u : κ) :
    m.views u ≤ (m.read t c).2.views u := views_le_learn m t _ u

omit [DecidableEq ℓ] in
theorem views_le_write (m : Memory κ ℓ ν V W) (t : κ) (c : ν) (value : W) (u : κ) :
    m.views u ≤ (m.write t c value).views u := views_le_learn m t _ u

omit [DecidableEq ν] in
theorem views_load_of_ne (m : Memory κ ℓ ν V W) (order : LoadOrder) (h : u ≠ t) (a : ℓ)
    (age : ℕ) : (m.load order t a age).2.views u = m.views u := m.learn_of_ne h _

omit [DecidableEq ν] in
theorem views_store_of_ne (m : Memory κ ℓ ν V W) (order : StoreOrder) (h : u ≠ t) (a : ℓ)
    (value : V) : (m.store order t a value).views u = m.views u := m.learn_of_ne h _

omit [DecidableEq ℓ] in
theorem views_read_of_ne (m : Memory κ ℓ ν V W) (h : u ≠ t) (c : ν) :
    (m.read t c).2.views u = m.views u := m.learn_of_ne h _

omit [DecidableEq ℓ] in
theorem views_write_of_ne (m : Memory κ ℓ ν V W) (h : u ≠ t) (c : ν) (value : W) :
    (m.write t c value).views u = m.views u := m.learn_of_ne h _

omit [DecidableEq ℓ] in
/-- A read of a cell learns of no store. -/
theorem front_read (m : Memory κ ℓ ν V W) (t : κ) (c : ν) (a : ℓ) :
    ((m.read t c).2.views t).front a = (m.views t).front a := by
  show ((m.learn t _).views t).front a = _
  rw [learn_self, View.front_sup, View.front_access, Nat.max_zero]

omit [DecidableEq ν] in
/-- A store learns of no other atomic. -/
theorem front_store_of_ne (m : Memory κ ℓ ν V W) (order : StoreOrder) (t : κ) {a b : ℓ}
    (hb : b ≠ a) (value : V) :
    ((m.store order t a value).views t).front b = (m.views t).front b := by
  show ((m.learn t _).views t).front b = _
  rw [learn_self, View.front_sup, View.front_store_of_ne hb, Nat.max_zero]

omit [DecidableEq ν] in
/-- A load learns of the store that it returns, and of no later one. -/
theorem Wf.front_load (h : m.Wf) (order : LoadOrder) (t : κ) (a : ℓ) (age : ℕ) :
    ((m.load order t a age).2.views t).front a = m.seen t a age := by
  have hlearns := ((order.learns_le _).2 a).trans (h.own a (m.seen t a age))
  have hfront := front_le_seen m t a age
  show ((m.learn t _).views t).front a = _
  rw [learn_self, View.front_sup, View.front_sup, View.front_store_self, max_eq_right hlearns,
    max_eq_right hfront]

omit [DecidableEq ν] in
/-- A thread knows of the store that it makes. -/
theorem Wf.front_store (h : m.Wf) (order : StoreOrder) (t : κ) (a : ℓ) (value : V) :
    ((m.store order t a value).views t).front a = m.last a + 1 := by
  show ((m.learn t _).views t).front a = _
  rw [learn_self, View.front_sup, View.front_store_self]
  exact max_eq_right ((h.front_le t a).trans (Nat.le_succ _))

omit [DecidableEq ℓ] [DecidableEq ν] in
theorem present_le_learn (m : Memory κ ℓ ν V W) (t : κ) (v : View κ ℓ) :
    m.present ≤ (m.learn t v).present :=
  ⟨fun u => (views_le_learn m t v u).1 u, le_refl m.last⟩

omit [DecidableEq ℓ] [DecidableEq ν] in
/-- A thread learns what has happened. -/
theorem Wf.learn (h : m.Wf) {v : View κ ℓ} (hv : v ≤ (m.learn t v).present) :
    (m.learn t v).Wf := by
  refine h.mono (present_le_learn m t v) (fun u => ?_) fun _ _ => Or.inl rfl
  by_cases hu : u = t
  · subst hu
    rw [learn_self]
    exact Or.inr (sup_le ((h.views u).trans (present_le_learn m u v)) hv)
  · exact Or.inl (learn_of_ne m hu v)

omit [DecidableEq κ] [DecidableEq ν] in
/-- What a load learns has happened. -/
theorem Wf.learns_le (h : m.Wf) (order : LoadOrder) (t : κ) (a : ℓ) (age : ℕ) :
    order.learns (m.messages a (m.seen t a age)).view ⊔ View.store a (m.seen t a age) ≤
      m.present :=
  sup_le ((order.learns_le _).trans (h.messages a _)) (View.store_le_iff.mpr (h.seen_le t a age))

omit [DecidableEq ν] in
theorem Wf.load (h : m.Wf) (order : LoadOrder) (t : κ) (a : ℓ) (age : ℕ) :
    (m.load order t a age).2.Wf :=
  h.learn ((h.learns_le order t a age).trans (present_le_learn m t _))

omit [DecidableEq ν] in
theorem messages_store_self (m : Memory κ ℓ ν V W) (order : StoreOrder) (t : κ) (a : ℓ)
    (value : V) : (m.store order t a value).messages a (m.last a + 1) =
      ⟨value, order.publishes (m.views t ⊔ View.store a (m.last a + 1))⟩ := by
  simp only [store, Function.update_self]

omit [DecidableEq ν] in
theorem messages_store_of_ne (m : Memory κ ℓ ν V W) (order : StoreOrder) (t : κ) {a b : ℓ}
    (value : V) {i : ℕ} (h : b ≠ a ∨ i ≠ m.last a + 1) :
    (m.store order t a value).messages b i = m.messages b i := by
  by_cases hb : b = a
  · subst hb
    simp only [store, Function.update_self, Function.update_of_ne (h.resolve_left fun h => h rfl)]
  · simp only [store, Function.update_of_ne hb]

omit [DecidableEq ν] in
@[simp] theorem last_store_self (m : Memory κ ℓ ν V W) (order : StoreOrder) (t : κ) (a : ℓ)
    (value : V) : (m.store order t a value).last a = m.last a + 1 := Function.update_self _ _ _

omit [DecidableEq ν] in
theorem last_store_of_ne (m : Memory κ ℓ ν V W) (order : StoreOrder) (t : κ) {a b : ℓ}
    (h : b ≠ a) (value : V) : (m.store order t a value).last b = m.last b :=
  Function.update_of_ne h _ _

omit [DecidableEq ν] in
@[simp] theorem current_store_self (m : Memory κ ℓ ν V W) (order : StoreOrder) (t : κ) (a : ℓ)
    (value : V) : (m.store order t a value).current a = value := by
  rw [current, last_store_self, messages_store_self]

omit [DecidableEq ν] in
theorem current_store_of_ne (m : Memory κ ℓ ν V W) (order : StoreOrder) (t : κ) {a b : ℓ}
    (h : b ≠ a) (value : V) : (m.store order t a value).current b = m.current b := by
  rw [current, last_store_of_ne m order t h, messages_store_of_ne m order t value (Or.inl h)]
  rfl

omit [DecidableEq ν] in
theorem present_le_store (m : Memory κ ℓ ν V W) (order : StoreOrder) (t : κ) (a : ℓ) (value : V) :
    m.present ≤ (m.store order t a value).present := by
  refine ⟨(present_le_learn m t _).1, fun b => ?_⟩
  show m.last b ≤ (m.store order t a value).last b
  by_cases hb : b = a
  · subst hb
    rw [last_store_self]
    exact Nat.le_succ _
  · rw [last_store_of_ne m order t hb]

omit [DecidableEq ν] in
theorem Wf.store (h : m.Wf) (order : StoreOrder) (t : κ) (a : ℓ) (value : V) :
    (m.store order t a value).Wf := by
  have hview : m.views t ⊔ View.store a (m.last a + 1) ≤ (m.store order t a value).present := by
    refine sup_le ((h.views t).trans (present_le_store m order t a value))
      (View.store_le_iff.mpr ?_)
    exact (last_store_self m order t a value).ge
  refine h.mono (present_le_store m order t a value) (fun u => ?_) fun b i => ?_
  · by_cases hu : u = t
    · subst hu
      exact Or.inr ((learn_self m u _).le.trans hview)
    · exact Or.inl (learn_of_ne m hu _)
  · by_cases hnew : b = a ∧ i = m.last a + 1
    · obtain ⟨rfl, rfl⟩ := hnew
      rw [messages_store_self]
      refine Or.inr ⟨(order.publishes_le _).trans hview, ((order.publishes_le _).2 b).trans ?_⟩
      show (m.views t ⊔ View.store b (m.last b + 1)).front b ≤ m.last b + 1
      rw [View.front_sup, View.front_store_self]
      exact max_le ((h.front_le t b).trans (Nat.le_succ _)) (le_refl _)
    · exact Or.inl (messages_store_of_ne m order t value (by rwa [← not_and_or]))

omit [DecidableEq ℓ] [DecidableEq ν] in
/-- An access has happened once it is made. -/
theorem Wf.access (h : m.Wf) (t : κ) (k : ℕ) : (m.learn t (View.access t k)).Wf := by
  refine h.learn (View.access_le_iff.mpr ?_)
  show k ≤ ((m.learn t (View.access t k)).views t).clock t
  rw [learn_self, View.clock_sup, View.clock_access_self]
  exact le_max_right _ _

omit [DecidableEq ℓ] in
theorem Wf.read (h : m.Wf) (t : κ) (c : ν) : (m.read t c).2.Wf :=
  ⟨(h.access t _).views, (h.access t _).messages, h.own⟩

omit [DecidableEq ℓ] in
theorem Wf.write (h : m.Wf) (t : κ) (c : ν) (value : W) : (m.write t c value).Wf :=
  ⟨(h.access t _).views, (h.access t _).messages, h.own⟩

omit [DecidableEq ℓ] in
/-- A read changes no value. -/
theorem value_read (m : Memory κ ℓ ν V W) (t : κ) (c d : ν) :
    ((m.read t c).2.cells d).value = (m.cells d).value := by
  by_cases hd : d = c
  · subst hd
    simp only [read, Function.update_self]
  · simp only [read, Function.update_of_ne hd]

omit [DecidableEq ℓ] in
/-- A write changes the value of its cell. -/
theorem value_write (m : Memory κ ℓ ν V W) (t : κ) (c : ν) (value : W) :
    (fun d => ((m.write t c value).cells d).value) =
      Function.update (fun d => (m.cells d).value) c value := by
  funext d
  by_cases hd : d = c
  · subst hd
    simp only [write, Function.update_self]
  · simp only [write, Function.update_of_ne hd]

omit [DecidableEq ν] in
/-- A load is no access. -/
theorem Wf.clock_load (h : m.Wf) (order : LoadOrder) (t : κ) (a : ℓ) (age : ℕ) (u : κ) :
    (m.load order t a age).2.present.clock u = m.present.clock u := by
  by_cases hu : u = t
  · subst hu
    show ((m.learn u _).views u).clock u = (m.views u).clock u
    rw [learn_self, View.clock_sup]
    exact max_eq_left ((h.learns_le order u a age).1 u)
  · show ((m.learn t _).views u).clock u = (m.views u).clock u
    rw [learn_of_ne m hu]

omit [DecidableEq ν] in
/-- A store is no access. -/
theorem clock_store (m : Memory κ ℓ ν V W) (order : StoreOrder) (t : κ) (a : ℓ) (value : V)
    (u : κ) : (m.store order t a value).present.clock u = m.present.clock u := by
  by_cases hu : u = t
  · subst hu
    show ((m.learn u _).views u).clock u = (m.views u).clock u
    rw [learn_self, View.clock_sup, View.clock_store, Nat.max_zero]
  · show ((m.learn t _).views u).clock u = (m.views u).clock u
    rw [learn_of_ne m hu]

omit [DecidableEq ℓ] [DecidableEq ν] in
theorem clock_access_self (m : Memory κ ℓ ν V W) (t : κ) :
    (m.learn t (View.access t ((m.views t).clock t + 1))).present.clock t =
      m.present.clock t + 1 := by
  show ((m.learn t _).views t).clock t = (m.views t).clock t + 1
  rw [learn_self, View.clock_sup, View.clock_access_self]
  exact max_eq_right (Nat.le_succ _)

omit [DecidableEq ℓ] [DecidableEq ν] in
theorem clock_access_of_ne (m : Memory κ ℓ ν V W) (h : u ≠ t) (k : ℕ) :
    (m.learn t (View.access t k)).present.clock u = m.present.clock u := by
  show ((m.learn t _).views u).clock u = (m.views u).clock u
  rw [learn_of_ne m h]

end Memory

/-! ## Atomics with one writer -/

/-- What the stores of an atomic publish, its owner knows. -/
def Authored (owner : ℓ → κ) (m : Memory κ ℓ ν V W) : Prop :=
  ∀ a i, (m.messages a i).view ≤ m.views (owner a)

theorem authored_new (owner : ℓ → κ) (atomics : ℓ → V) (cells : ν → W) :
    Authored owner (Memory.new atomics cells : Memory κ ℓ ν V W) := fun _ _ => bot_le

section Authored

variable {owner : ℓ → κ} {m : Memory κ ℓ ν V W}

/-- What is no store. -/
theorem Authored.mono (h : Authored owner m) {m' : Memory κ ℓ ν V W}
    (hmessages : m'.messages = m.messages) (hviews : ∀ t, m.views t ≤ m'.views t) :
    Authored owner m' := by
  intro a i
  rw [hmessages]
  exact (h a i).trans (hviews _)

variable [DecidableEq κ] [DecidableEq ℓ]

theorem Authored.store (h : Authored owner m) (order : StoreOrder) (a : ℓ) (value : V) :
    Authored owner (m.store order (owner a) a value) := by
  intro b i
  by_cases hnew : b = a ∧ i = m.last a + 1
  · obtain ⟨rfl, rfl⟩ := hnew
    rw [Memory.messages_store_self]
    refine (order.publishes_le _).trans (le_of_eq ?_)
    exact (Memory.learn_self m (owner b) _).symm
  · rw [Memory.messages_store_of_ne m _ _ value (by rwa [← not_and_or])]
    exact (h b i).trans (Memory.views_le_store m _ _ _ _ _)

/-- **Who loads its own atomic** learns nothing, whatever the memory order is. -/
theorem Authored.views_load (h : Authored owner m) {a : ℓ}
    (hfront : (m.views (owner a)).front a = m.last a) (order : LoadOrder) (age : ℕ) :
    (m.load order (owner a) a age).2.views (owner a) = m.views (owner a) := by
  refine (Memory.learn_self m (owner a) _).trans (sup_eq_left.mpr (sup_le ?_ ?_))
  · exact (order.learns_le _).trans (h a _)
  · rw [View.store_le_iff, Memory.seen_of_front hfront, hfront]

end Authored

/-! ## Stores that carry accesses -/

/-- Who knows of a store of an atomic knows of as many accesses of its owner. -/
def Synced (owner : ℓ → κ) (v : View κ ℓ) : Prop := ∀ a, v.front a ≤ v.clock (owner a)

section Synced

variable {owner : ℓ → κ} {v w : View κ ℓ}

theorem synced_bot : Synced owner (⊥ : View κ ℓ) := fun _ => le_refl 0

theorem Synced.sup (hv : Synced owner v) (hw : Synced owner w) : Synced owner (v ⊔ w) :=
  fun a => sup_le_sup (hv a) (hw a)

theorem Synced.store [DecidableEq ℓ] (h : Synced owner v) {a : ℓ} {i : ℕ}
    (hi : i ≤ v.clock (owner a)) : Synced owner (v ⊔ View.store a i) := by
  intro b
  rw [View.front_sup, View.clock_sup, View.clock_store, Nat.max_zero]
  by_cases hb : b = a
  · subst hb
    rw [View.front_store_self]
    exact max_le (h b) hi
  · rw [View.front_store_of_ne hb, Nat.max_zero]
    exact h b

theorem Synced.access [DecidableEq κ] (h : Synced owner v) (t : κ) (k : ℕ) :
    Synced owner (v ⊔ View.access t k) := by
  intro a
  rw [View.front_sup, View.front_access, Nat.max_zero, View.clock_sup]
  exact (h a).trans (le_max_left _ _)

end Synced

/-- The owner of an atomic has made as many accesses as stores, and every store carries the
accesses that came before it to whoever comes to know of the store. -/
structure Transfers (owner : ℓ → κ) (m : Memory κ ℓ ν V W) : Prop where
  views : ∀ t, Synced owner (m.views t)
  messages : ∀ a i, Synced owner (m.messages a i).view
  stores : ∀ a i, i ≤ m.last a → i ≤ (m.messages a i).view.clock (owner a)

theorem transfers_new (owner : ℓ → κ) (atomics : ℓ → V) (cells : ν → W) :
    Transfers owner (Memory.new atomics cells : Memory κ ℓ ν V W) where
  views _ := synced_bot
  messages _ _ := synced_bot
  stores _ _ hi := hi

section Transfers

variable [DecidableEq κ] {owner : ℓ → κ} {m : Memory κ ℓ ν V W}

theorem Transfers.learn (h : Transfers owner m) {t : κ} {v : View κ ℓ}
    (hv : Synced owner (m.views t ⊔ v)) : Transfers owner (m.learn t v) := by
  refine ⟨fun u => ?_, h.messages, h.stores⟩
  by_cases hu : u = t
  · subst hu
    rwa [Memory.learn_self]
  · rw [Memory.learn_of_ne m hu]
    exact h.views u

theorem Transfers.access (h : Transfers owner m) (t : κ) (k : ℕ) :
    Transfers owner (m.learn t (View.access t k)) :=
  h.learn ((h.views t).access t k)

variable [DecidableEq ℓ]

/-- **An acquiring load** learns of what the store carries.  A thread that knows the last
store has nothing to learn. -/
theorem Transfers.load (h : Transfers owner m) (hwf : m.Wf) {order : LoadOrder} {t : κ} {a : ℓ}
    (horder : order = .acquire ∨ (m.views t).front a = m.last a) (age : ℕ) :
    Transfers owner (m.load order t a age).2 := by
  refine h.learn ?_
  rw [← sup_assoc]
  refine Synced.store ((h.views t).sup ?_) ?_
  · cases order with
    | relaxed => exact synced_bot
    | acquire => exact h.messages a _
  · rw [View.clock_sup]
    rcases horder with rfl | hfront
    · exact (h.stores a _ (hwf.seen_le t a age)).trans (le_max_right _ _)
    · rw [Memory.seen_of_front hfront, ← hfront]
      exact (h.views t a).trans (le_max_left _ _)

/-- **A releasing store** by the owner, after one more access. -/
theorem Transfers.store (h : Transfers owner m) {a : ℓ}
    (hclock : m.last a < (m.views (owner a)).clock (owner a)) (value : V) :
    Transfers owner (m.store .release (owner a) a value) := by
  have hview : Synced owner (m.views (owner a) ⊔ View.store a (m.last a + 1)) :=
    (h.views _).store hclock
  refine ⟨(h.learn hview).views, fun b i => ?_, fun b i hi => ?_⟩
  · by_cases hnew : b = a ∧ i = m.last a + 1
    · obtain ⟨rfl, rfl⟩ := hnew
      rw [Memory.messages_store_self]
      exact hview
    · rw [Memory.messages_store_of_ne m _ _ value (by rwa [← not_and_or])]
      exact h.messages b i
  · by_cases hb : b = a
    · subst hb
      rw [Memory.last_store_self] at hi
      by_cases hnew : i = m.last b + 1
      · subst hnew
        rw [Memory.messages_store_self]
        exact hclock.trans_le (le_max_left _ _)
      · rw [Memory.messages_store_of_ne m _ _ value (Or.inr hnew)]
        exact h.stores b i (by omega)
    · rw [Memory.last_store_of_ne m _ _ hb] at hi
      rw [Memory.messages_store_of_ne m _ _ value (Or.inl hb)]
      exact h.stores b i hi

variable [DecidableEq ν]

omit [DecidableEq ℓ] in
theorem Transfers.read (h : Transfers owner m) (t : κ) (c : ν) : Transfers owner (m.read t c).2 :=
  ⟨(h.access t _).views, h.messages, h.stores⟩

omit [DecidableEq ℓ] in
theorem Transfers.write (h : Transfers owner m) (t : κ) (c : ν) (value : W) :
    Transfers owner (m.write t c value) :=
  ⟨(h.access t _).views, h.messages, h.stores⟩

end Transfers

/-! ## Threads that learn nothing -/

/-- The thread `t` knows of no access of `u`, and neither do the stores of the atomics that
satisfy `p`. -/
structure Blind (t u : κ) (p : ℓ → Prop) (m : Memory κ ℓ ν V W) : Prop where
  view : (m.views t).clock u = 0
  messages : ∀ a, p a → ∀ i, (m.messages a i).view.clock u = 0

theorem blind_new (t u : κ) (p : ℓ → Prop) (atomics : ℓ → V) (cells : ν → W) :
    Blind t u p (Memory.new atomics cells : Memory κ ℓ ν V W) where
  view := rfl
  messages _ _ _ := rfl

section Blind

variable {t u : κ} {p : ℓ → Prop} {m : Memory κ ℓ ν V W}

/-- A blind thread does not know of an access. -/
theorem Blind.knows (h : Blind t u p m) {k : ℕ} (hk : 0 < k) :
    (m.views t).knows (u, k) = false := by
  rw [View.knows, h.view]
  exact decide_eq_false (Nat.not_le.mpr hk)

variable [DecidableEq κ] {w : κ}

theorem Blind.learn (h : Blind t u p m) {v : View κ ℓ} (hv : w = t → v.clock u = 0) :
    Blind t u p (m.learn w v) := by
  refine ⟨?_, h.messages⟩
  by_cases hw : t = w
  · subst hw
    rw [Memory.learn_self, View.clock_sup, h.view, hv rfl]
    rfl
  · rw [Memory.learn_of_ne m hw]
    exact h.view

/-- An access that is none of `u`, or none by `t`. -/
theorem Blind.access (h : Blind t u p m) (hne : t ≠ u) (k : ℕ) :
    Blind t u p (m.learn w (View.access w k)) := by
  refine h.learn fun hw => View.clock_access_of_ne ?_ k
  rw [hw]
  exact hne.symm

variable [DecidableEq ℓ] {a : ℓ}

/-- A load that does not acquire, or that acquires what is blind. -/
theorem Blind.load (h : Blind t u p m) {order : LoadOrder}
    (hload : w = t → order = .relaxed ∨ p a) (age : ℕ) :
    Blind t u p (m.load order w a age).2 := by
  refine h.learn fun hw => ?_
  rw [View.clock_sup, View.clock_store, Nat.max_zero]
  rcases hload hw with rfl | ha
  · rfl
  · exact Nat.eq_zero_of_le_zero (((order.learns_le _).1 u).trans (h.messages a ha _).le)

/-- A store that does not release, or of what is known to be blind. -/
theorem Blind.store (h : Blind t u p m) {order : StoreOrder}
    (hstore : p a → order = .relaxed ∨ w = t) (value : V) :
    Blind t u p (m.store order w a value) := by
  refine ⟨(h.learn fun _ => View.clock_store a _ u).view, fun b hb i => ?_⟩
  by_cases hnew : b = a ∧ i = m.last a + 1
  · obtain ⟨rfl, rfl⟩ := hnew
    rw [Memory.messages_store_self]
    rcases hstore hb with rfl | rfl
    · rfl
    · have hview : (m.views w ⊔ View.store b (m.last b + 1)).clock u = 0 := by
        rw [View.clock_sup, View.clock_store, Nat.max_zero]
        exact h.view
      exact Nat.eq_zero_of_le_zero (((order.publishes_le _).1 u).trans hview.le)
  · rw [Memory.messages_store_of_ne m _ _ value (by rwa [← not_and_or])]
    exact h.messages b hb i

variable [DecidableEq ν]

omit [DecidableEq ℓ] in
theorem Blind.read (h : Blind t u p m) (hne : t ≠ u) (c : ν) : Blind t u p (m.read w c).2 :=
  ⟨(h.access hne _).view, h.messages⟩

omit [DecidableEq ℓ] in
theorem Blind.write (h : Blind t u p m) (hne : t ≠ u) (c : ν) (value : W) :
    Blind t u p (m.write w c value) :=
  ⟨(h.access hne _).view, h.messages⟩

end Blind

end WeakMemory
end MatchingEngine
