-- SUMMARY: Programs that use a resource which may be destroyed under them, and pre- and postconditions for them.
import Mathlib.Init

/-!
# Resources that may go away

A program holds a pointer to a resource. It reads and writes the resource, it may
destroy it, and it makes calls that may destroy it as well. To use the resource after
that is a misuse. What the calls will do is not known to the program: the state holds
the outcomes of all calls to come, and of those that were made.
-/

/-- A resource with contents of type `σ`, the outcomes of the calls to come, and of the
calls that were made. -/
structure Resource (σ O : Type) where
  obj : σ
  alive : Bool
  misused : Bool
  outs : Nat → O
  made : List O

/-- A program that uses a resource. -/
def ResM (σ O α : Type) := Resource σ O → α × Resource σ O

namespace ResM

variable {σ O α β : Type}

instance : Monad (ResM σ O) where
  pure a := fun r => (a, r)
  bind x f := fun r => f (x r).1 (x r).2

/-- Read or write some of the resource. -/
def use : ResM σ O PUnit := fun r => (⟨⟩, { r with misused := r.misused || !r.alive })

/-- Read the contents. -/
def get : ResM σ O σ := fun r => (r.obj, { r with misused := r.misused || !r.alive })

/-- Write the contents. -/
def modify (f : σ → σ) : ResM σ O PUnit := fun r =>
  (⟨⟩, { r with obj := f r.obj, misused := r.misused || !r.alive })

/-- Destroy the resource. -/
def destroy : ResM σ O PUnit := fun r =>
  (⟨⟩, { r with alive := false, misused := r.misused || !r.alive })

/-- A call that uses the resource and may destroy it. -/
def call (lost : O → Bool) : ResM σ O O := fun r =>
  (r.outs 0, { r with
    alive := r.alive && !lost (r.outs 0)
    misused := r.misused || !r.alive
    outs := fun n => r.outs (n + 1)
    made := r.made ++ [r.outs 0] })

/-- From a state with `P`, the program returns a value and a state with `Q`. -/
def Ensures (P : Resource σ O → Prop) (x : ResM σ O α) (Q : α → Resource σ O → Prop) : Prop :=
  ∀ r, P r → Q (x r).1 (x r).2

section

variable {P P' : Resource σ O → Prop} {x y : ResM σ O α} {Q Q' : α → Resource σ O → Prop}

theorem Ensures.pure {a : α} (h : ∀ r, P r → Q a r) : Ensures P (pure a : ResM σ O α) Q := h

theorem Ensures.bind {R : α → Resource σ O → Prop} {f : α → ResM σ O β}
    {Q : β → Resource σ O → Prop} (hx : Ensures P x R) (hf : ∀ a, Ensures (R a) (f a) Q) :
    Ensures P (x >>= f) Q :=
  fun r hr => hf _ _ (hx r hr)

theorem Ensures.ite {p : Prop} [Decidable p] (hx : p → Ensures P x Q) (hy : ¬p → Ensures P y Q) :
    Ensures P (if p then x else y) Q := by
  split
  next h => exact hx h
  next h => exact hy h

theorem Ensures.mono (h : Ensures P x Q) (hP : ∀ r, P' r → P r) (hQ : ∀ a r, Q a r → Q' a r) :
    Ensures P' x Q' :=
  fun r hr => hQ _ _ (h r (hP r hr))

end

/-! ## Live resources -/

/-- The resource was not misused, and the contents satisfy `I`. -/
structure Clean (I : σ → Prop) (r : Resource σ O) : Prop where
  fine : r.misused = false
  obj : I r.obj

/-- The resource is there. -/
structure Live (I : σ → Prop) (r : Resource σ O) : Prop extends Clean I r where
  alive : r.alive = true

variable {I J : σ → Prop}

theorem Clean.imp {r : Resource σ O} (h : Clean I r) (hIJ : ∀ c, I c → J c) : Clean J r :=
  ⟨h.fine, hIJ _ h.obj⟩

theorem use_live : Ensures (Live I) (use : ResM σ O PUnit) fun _ => Live I := by
  intro r hr
  exact ⟨⟨by simp [use, hr.fine, hr.alive], hr.obj⟩, hr.alive⟩

theorem get_live : Ensures (Live I) (get : ResM σ O σ) fun c r => I c ∧ Live I r := by
  intro r hr
  exact ⟨hr.obj, ⟨by simp [get, hr.fine, hr.alive], hr.obj⟩, hr.alive⟩

theorem modify_live {f : σ → σ} (hf : ∀ c, I c → J (f c)) :
    Ensures (Live I) (modify f : ResM σ O PUnit) fun _ => Live J := by
  intro r hr
  exact ⟨⟨by simp [modify, hr.fine, hr.alive], hf _ hr.obj⟩, hr.alive⟩

theorem destroy_live :
    Ensures (Live I) (destroy : ResM σ O PUnit) fun _ r => Clean I r ∧ r.alive = false := by
  intro r hr
  exact ⟨⟨by simp [destroy, hr.fine, hr.alive], hr.obj⟩, rfl⟩

theorem call_live (lost : O → Bool) :
    Ensures (Live I) (call lost : ResM σ O O) fun o r =>
      o ∈ r.made ∧ Clean I r ∧ r.alive = !lost o := by
  intro r hr
  refine ⟨by simp [call], ⟨by simp [call, hr.fine, hr.alive], hr.obj⟩, ?_⟩
  simp [call, hr.alive]

/-- Go on with what was read. -/
theorem Ensures.get_bind {f : σ → ResM σ O β} {Q : β → Resource σ O → Prop}
    (hf : ∀ c, I c → Ensures (Live I) (f c) Q) : Ensures (Live I) (get >>= f) Q :=
  get_live.bind fun c r hr => hf c hr.1 r hr.2

theorem Ensures.use_bind {f : PUnit → ResM σ O β} {Q : β → Resource σ O → Prop}
    (hf : Ensures (Live I) (f ⟨⟩) Q) : Ensures (Live I) (use >>= f) Q :=
  use_live.bind fun _ => hf

theorem Ensures.modify_bind {g : σ → σ} {f : PUnit → ResM σ O β} {Q : β → Resource σ O → Prop}
    (hg : ∀ c, I c → J (g c)) (hf : Ensures (Live J) (f ⟨⟩) Q) :
    Ensures (Live I) (modify g >>= f) Q :=
  (modify_live hg).bind fun _ => hf

/-! ## Properties of the contents -/

/-- The program keeps a property of the contents. -/
def Preserves (I : σ → Prop) (x : ResM σ O α) : Prop := ∀ r, I r.obj → I (x r).2.obj

theorem Preserves.pure (a : α) : Preserves I (pure a : ResM σ O α) := fun _ h => h

theorem Preserves.use : Preserves I (use : ResM σ O PUnit) := fun _ h => h

theorem Preserves.destroy : Preserves I (destroy : ResM σ O PUnit) := fun _ h => h

theorem Preserves.call (lost : O → Bool) : Preserves I (call lost : ResM σ O O) := fun _ h => h

theorem Preserves.modify {f : σ → σ} (hf : ∀ c, I c → I (f c)) :
    Preserves I (modify f : ResM σ O PUnit) :=
  fun r h => hf r.obj h

theorem Preserves.bind {x : ResM σ O α} {f : α → ResM σ O β} (hx : Preserves I x)
    (hf : ∀ a, Preserves I (f a)) : Preserves I (x >>= f) :=
  fun r h => hf _ _ (hx r h)

theorem Preserves.modify_bind {g : σ → σ} {f : PUnit → ResM σ O β} (hg : ∀ c, I c → I (g c))
    (hf : Preserves I (f ⟨⟩)) : Preserves I (ResM.modify g >>= f) :=
  (Preserves.modify hg).bind fun _ => hf

theorem Preserves.get_bind {f : σ → ResM σ O β} (hf : ∀ c, I c → Preserves I (f c)) :
    Preserves I (get >>= f) :=
  fun r h => hf r.obj h { r with misused := r.misused || !r.alive } h

/-- Go on after a program that keeps a property, towards another one. -/
theorem Preserves.ensures_bind {x : ResM σ O α} {f : α → ResM σ O β} {Q : β → Resource σ O → Prop}
    (hx : Preserves I x) (hf : ∀ a, Ensures (fun r => I r.obj) (f a) Q) :
    Ensures (fun r => I r.obj) (x >>= f) Q :=
  Ensures.bind (R := fun _ r => I r.obj) hx hf

/-- Go on with the contents, of which a property is known. -/
theorem Ensures.get_obj_bind {f : σ → ResM σ O β} {Q : β → Resource σ O → Prop}
    (hf : ∀ c, I c → Ensures (fun r => I r.obj) (f c) Q) :
    Ensures (fun r => I r.obj) (get >>= f) Q :=
  fun r h => hf r.obj h { r with misused := r.misused || !r.alive } h

theorem Ensures.modify_obj_bind {g : σ → σ} {f : PUnit → ResM σ O β} {Q : β → Resource σ O → Prop}
    (hg : ∀ c, I c → J (g c)) (hf : Ensures (fun r => J r.obj) (f ⟨⟩) Q) :
    Ensures (fun r => I r.obj) (ResM.modify g >>= f) Q :=
  fun r h => hf { r with obj := g r.obj, misused := r.misused || !r.alive } (hg r.obj h)

theorem Preserves.ite {p : Prop} [Decidable p] {x y : ResM σ O α} (hx : Preserves I x)
    (hy : Preserves I y) : Preserves I (if p then x else y) := by
  split
  · exact hx
  · exact hy

/-! ## Parts of a resource -/

section Part

variable {τ : Type} {get : τ → σ} {set : σ → τ → τ}

/-- The resource as seen by a program that knows only a part of its contents. -/
def view (get : τ → σ) (r : Resource τ O) : Resource σ O := { r with obj := get r.obj }

/-- Run a program on a part of the contents. -/
def onPart (get : τ → σ) (set : σ → τ → τ) (x : ResM σ O α) : ResM τ O α := fun r =>
  ((x (view get r)).1, { (x (view get r)).2 with obj := set (x (view get r)).2.obj r.obj })

/-- The program does to the part what the other one does, and returns the same. -/
def Extends (get : τ → σ) (x : ResM τ O α) (y : ResM σ O α) : Prop :=
  ∀ r, (x r).1 = (y (view get r)).1 ∧ view get (x r).2 = (y (view get r)).2

theorem Extends.pure (a : α) :
    Extends get (Pure.pure a : ResM τ O α) (Pure.pure a : ResM σ O α) :=
  fun _ => ⟨rfl, rfl⟩

theorem Extends.bind {x : ResM τ O α} {y : ResM σ O α} {f : α → ResM τ O β} {g : α → ResM σ O β}
    (hx : Extends get x y) (hf : ∀ a, Extends get (f a) (g a)) :
    Extends get (x >>= f) (y >>= g) := by
  intro r
  obtain ⟨h1, h2⟩ := hx r
  have h := hf (y (view get r)).1 (x r).2
  rw [h2] at h
  change (f (x r).1 (x r).2).1 = _ ∧ view get (f (x r).1 (x r).2).2 = _
  rw [h1]
  exact h

theorem Extends.ite {p : Prop} [Decidable p] {x x' : ResM τ O α} {y y' : ResM σ O α}
    (hx : Extends get x y) (hx' : Extends get x' y') :
    Extends get (if p then x else x') (if p then y else y') := by
  split
  · exact hx
  · exact hx'

theorem Extends.onPart (hget : ∀ c d, get (set c d) = c) (x : ResM σ O α) :
    Extends get (ResM.onPart get set x) x := by
  intro r
  refine ⟨rfl, ?_⟩
  simp only [ResM.onPart, view, hget]

theorem Extends.modify (get : τ → σ) (f : τ → τ) (g : σ → σ) (h : ∀ d, get (f d) = g (get d)) :
    Extends get (ResM.modify f : ResM τ O PUnit) (ResM.modify g) := by
  intro r
  refine ⟨rfl, ?_⟩
  simp only [ResM.modify, view, h]

theorem Extends.get_bind {f : τ → ResM τ O β} {g : σ → ResM σ O β}
    (hf : ∀ d, Extends get (f d) (g (get d))) : Extends get (ResM.get >>= f) (ResM.get >>= g) :=
  fun r => hf r.obj { r with misused := r.misused || !r.alive }

theorem Extends.use : Extends get (ResM.use : ResM τ O PUnit) (ResM.use : ResM σ O PUnit) :=
  fun _ => ⟨rfl, rfl⟩

end Part

end ResM
