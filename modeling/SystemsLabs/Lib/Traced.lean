import SystemsLabs.Lib.Except

/-!
# Programs that leave a trace

A program of this kind has a list of events and a result; it may stop with an error, which the
events before it survive.

* `Traced.result_bind` — without the events, these are the programs of `Except`.
* `Traced.mem_trace_bind` — the events of a sequence of two programs.
-/

namespace SystemsLabs.Lib

universe u v w

/-- What a program has done, and how it has ended. -/
structure Traced (σ : Type u) (ε : Type v) (α : Type w) where
  trace : List σ
  result : Except ε α

namespace Traced

variable {σ : Type u} {ε : Type v} {α β : Type w}

/-- A program without events. -/
def lift (x : Except ε α) : Traced σ ε α := ⟨[], x⟩

/-- One event. -/
def emit (s : σ) : Traced σ ε PUnit := ⟨[s], .ok ⟨⟩⟩

instance : Monad (Traced σ ε) where
  pure a := ⟨[], .ok a⟩
  bind x f :=
    match x.result with
    | .error e => ⟨x.trace, .error e⟩
    | .ok a => ⟨x.trace ++ (f a).trace, (f a).result⟩

variable {x : Traced σ ε α} {f : α → Traced σ ε β} {a : α} {e : ε} {s : σ}

/-- A value leaves no trace. -/
@[simp] theorem trace_pure (a : α) : (pure a : Traced σ ε α).trace = [] := rfl

/-- A value is its own result. -/
@[simp] theorem result_pure (a : α) : (pure a : Traced σ ε α).result = .ok a := rfl

/-- A computation without a trace leaves none. -/
@[simp] theorem trace_lift (x : Except ε α) : (lift x : Traced σ ε α).trace = [] := rfl

/-- A computation without a trace keeps its result. -/
@[simp] theorem result_lift (x : Except ε α) : (lift x : Traced σ ε α).result = x := rfl

/-- One item is emitted. -/
@[simp] theorem trace_emit (s : σ) : (emit s : Traced σ ε PUnit).trace = [s] := rfl

/-- Emitting succeeds. -/
@[simp] theorem result_emit (s : σ) : (emit s : Traced σ ε PUnit).result = .ok ⟨⟩ := rfl

/-- Without the events. -/
@[simp] theorem result_bind (x : Traced σ ε α) (f : α → Traced σ ε β) :
    (x >>= f).result = x.result >>= fun a => (f a).result := by
  obtain ⟨trace, e | a⟩ := x
  · rfl
  · rfl

/-- An event comes first. -/
theorem emit_bind (s : σ) (f : PUnit → Traced σ ε β) :
    (emit s >>= f) = ⟨s :: (f ⟨⟩).trace, (f ⟨⟩).result⟩ := rfl

/-- The traces of two computations one after the other. -/
theorem trace_bind_of_ok (h : x.result = .ok a) : (x >>= f).trace = x.trace ++ (f a).trace := by
  obtain ⟨trace, result⟩ := x
  subst h
  rfl

/-- A computation that fails is the last. -/
theorem trace_bind_of_error (h : x.result = .error e) : (x >>= f).trace = x.trace := by
  obtain ⟨trace, result⟩ := x
  subst h
  rfl

/-- A program without events comes first. -/
theorem trace_lift_bind {x : Except ε α} (h : x = .ok a) :
    (lift x >>= f : Traced σ ε β).trace = (f a).trace := by
  rw [trace_bind_of_ok (show (lift x : Traced σ ε α).result = .ok a from h), trace_lift,
    List.nil_append]

/-- An event of the first program, or of the second if that is come to. -/
theorem mem_trace_bind :
    s ∈ (x >>= f).trace ↔ s ∈ x.trace ∨ ∃ a, x.result = .ok a ∧ s ∈ (f a).trace := by
  cases h : x.result with
  | error e => simp [trace_bind_of_error h]
  | ok a => simp [trace_bind_of_ok h]

end Traced

end SystemsLabs.Lib
