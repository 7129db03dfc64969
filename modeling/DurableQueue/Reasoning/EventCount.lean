import Mathlib.Data.List.Basic

/-!
# Event counts

A counter that producers bump after they have published something, and that a reader takes down
before it looks for what has been published.  If the counter still stands where the reader took it
down, whatever has been announced since had been published before the reader looked.
-/

namespace Reasoning

/-- The counter, what has been published, and which publishers have bumped the counter since. -/
structure EventCount (π : Type*) where
  generation : Nat
  published : List π
  woken : List π

/-- What a reader takes down: the counter, and who had bumped it by then. -/
structure Look (π : Type*) where
  seen : Nat
  woken : List π

namespace EventCount

variable {π : Type*} {e : EventCount π} {l : Look π} {p : π}

def empty : EventCount π := ⟨0, [], []⟩

def look (e : EventCount π) : Look π := ⟨e.generation, e.woken⟩

def publish (e : EventCount π) (p : π) : EventCount π :=
  { e with published := p :: e.published }

def wake (e : EventCount π) (p : π) : EventCount π :=
  { e with generation := e.generation + 1, woken := p :: e.woken }

/-- A bump on behalf of nobody in particular. -/
def bump (e : EventCount π) : EventCount π := { e with generation := e.generation + 1 }

/-- Nobody announces what is not published. -/
def Valid (e : EventCount π) : Prop := ∀ p ∈ e.woken, p ∈ e.published

/-- What a look still tells about a later state of the counter. -/
structure Sound (e : EventCount π) (l : Look π) : Prop where
  le : l.seen ≤ e.generation
  fresh : e.generation = l.seen → ∀ p ∈ e.woken, p ∈ l.woken
  published : ∀ p ∈ l.woken, p ∈ e.published

theorem Valid.publish (h : e.Valid) (p : π) : (e.publish p).Valid :=
  fun q hq ↦ List.mem_cons_of_mem p (h q hq)

theorem Valid.wake (h : e.Valid) (hp : p ∈ e.published) : (e.wake p).Valid := by
  intro q hq
  rcases List.mem_cons.mp hq with hqp | hq
  · rw [hqp]
    exact hp
  · exact h q hq

theorem Valid.bump (h : e.Valid) : e.bump.Valid := h

theorem Valid.look (h : e.Valid) : e.Sound e.look := ⟨Nat.le_refl _, fun _ _ hp ↦ hp, h⟩

theorem Sound.publish (h : e.Sound l) (p : π) : (e.publish p).Sound l where
  le := h.le
  fresh := h.fresh
  published q hq := List.mem_cons_of_mem p (h.published q hq)

theorem Sound.bumped {e' : EventCount π} (h : e.Sound l) (hg : e'.generation = e.generation + 1)
    (hp : e'.published = e.published) : e'.Sound l where
  le := by
    have hle := h.le
    omega
  fresh hseen := by
    -- the counter never comes back to where it was taken down
    have hle := h.le
    omega
  published := by rw [hp]; exact h.published

theorem Sound.wake (h : e.Sound l) (p : π) : (e.wake p).Sound l := h.bumped rfl rfl

theorem Sound.bump (h : e.Sound l) : e.bump.Sound l := h.bumped rfl rfl

/-- No lost wake-up: a reader that is still at the current count has seen, in whatever it has looked
at since, everything that has been announced. -/
theorem Sound.saw (h : e.Sound l) (hseen : e.generation = l.seen) {saw : List π}
    (hsaw : ∀ q ∈ l.woken, q ∈ saw) (hp : p ∈ e.woken) : p ∈ saw :=
  hsaw p (h.fresh hseen p hp)

end EventCount

end Reasoning
