import Gait.Proofs.World.Settling

/-!
# What happens to motion joints

A run of operations is, as far as motion joints go, a sequence of two kinds of events: a playback is resolved, or a joint is
assigned. `Operation.events` says which events an operation is made of, and `Operation.run_world` that the world it leaves is the
one that its events lead to, one after the other.
-/

namespace Gait

/-! ## Evaluating and sampling -/

namespace Evaluator

/-- An evaluator that is no placeholder leaves the world as resolving the playback does. -/
theorem evaluate_world {e : Evaluator} (h : e.isPlaceholder = false) (p : Playback) (s : Settings) (w : World) :
    (e.evaluate p s w).world = (p.resolve w).world := by
  cases hr : (p.resolve w).result with
  | error cause => rw [evaluate_of_error h s hr]
  | ok motion => rw [evaluate_of_ok h s hr]

/-- The value of an evaluator is decided by the settled world. -/
theorem evaluate_result_congr (e : Evaluator) (p : Playback) (s : Settings) {w w' : World}
    (h : w.settled = w'.settled) : (e.evaluate p s w).result = (e.evaluate p s w').result := by
  cases he : e.isPlaceholder with
  | true => rw [evaluate_of_placeholder he, evaluate_of_placeholder he]
  | false =>
    have same := p.resolve_result_congr h
    cases hr : (p.resolve w).result with
    | error cause => rw [evaluate_of_error he s hr, evaluate_of_error he s (same ▸ hr)]
    | ok motion => rw [evaluate_of_ok he s hr, evaluate_of_ok he s (same ▸ hr)]

/-- Evaluating a playback is a question. -/
theorem isQuestion_evaluate (e : Evaluator) (p : Playback) (s : Settings) : (e.evaluate p s).IsQuestion where
  settled_world w := by
    cases he : e.isPlaceholder with
    | true => rw [evaluate_of_placeholder he]
    | false => rw [evaluate_world he, p.settled_resolve_world]
  result_congr h := e.evaluate_result_congr p s h

/-- An evaluator fails if it is no placeholder and insists on a playback that leaves something open. -/
theorem evaluate_error_iff {e : Evaluator} {p : Playback} {s : Settings} {w : World} {f : AssertionFailure} :
    (e.evaluate p s w).result = .error f ↔
      e.isPlaceholder = false ∧ s.assertResolved = true ∧ f.evaluator = e ∧ (p.resolve w).result = .error f.cause := by
  cases he : e.isPlaceholder with
  | true => simp [evaluate_of_placeholder he]
  | false =>
    cases hr : (p.resolve w).result with
    | ok motion => simp [evaluate_of_ok he s hr]
    | error cause =>
      obtain ⟨evaluator, cause'⟩ := f
      rw [evaluate_of_error he s hr]
      cases s.assertResolved <;> simp [eq_comm]

end Evaluator

namespace Playback

theorem sampler_world (p : Playback) (s : Settings) (w : World) : (p.sampler s w).world = (p.resolve w).world := by
  cases hr : (p.resolve w).result with
  | error cause => rw [sampler_of_error s hr]
  | ok motion => rw [sampler_of_ok s hr]

/-- The sampler of a playback is decided by the settled world. -/
theorem sampler_result_congr (p : Playback) (s : Settings) {w w' : World} (h : w.settled = w'.settled) :
    (p.sampler s w).result = (p.sampler s w').result := by
  have same := p.resolve_result_congr h
  cases hr : (p.resolve w).result with
  | error cause => rw [sampler_of_error s hr, sampler_of_error s (same ▸ hr)]
  | ok motion => rw [sampler_of_ok s hr, sampler_of_ok s (same ▸ hr)]

/-- Resolving a playback once more changes nothing. -/
theorem resolve_world_resolve_world (p : Playback) (w : World) :
    (p.resolve (p.resolve w).world).world = (p.resolve w).world := by
  simp only [resolve_world]
  cases p.target? with
  | none => rfl
  | some n =>
    apply World.ext_getElem?
    intro i
    simp only [Option.toList_some, List.foldl_cons, List.foldl_nil, World.getElem?_settle]
    cases w.slots[i]? with
    | none => rfl
    | some slot => by_cases h : n = i <;> simp [h]

/-- Whether something about a playback is left open. -/
def isOpen (p : Playback) (w : World) : Bool :=
  match (p.resolve w).result with
  | .ok _ => false
  | .error _ => true

theorem isOpen_iff {p : Playback} {w : World} : p.isOpen w = true ↔ ∃ cause, (p.resolve w).result = .error cause := by
  rw [isOpen]
  cases (p.resolve w).result <;> simp

theorem isOpen_congr (p : Playback) {w w' : World} (h : w.settled = w'.settled) : p.isOpen w = p.isOpen w' := by
  rw [isOpen, isOpen, p.resolve_result_congr h]

end Playback

/-! ## Placing in a blend space -/

namespace Axes

/-- Whether any axis of a blend space has an evaluator, so that placing a playback resolves it. -/
def asks (a : Axes) : Bool := a.evaluators.any (!·.isPlaceholder)

theorem asks_iff {a : Axes} : a.asks = true ↔ ∃ e, a.evaluators.find? (!·.isPlaceholder) = some e := by
  rw [asks, List.any_eq_true, ← Option.isSome_iff_exists, List.find?_isSome]

/-- Whether a playback that leaves something open is a failure. -/
def insists (a : Axes) : Bool := a.asks && a.settings.assertResolved

/-- The playbacks that placing several comes to: all of them, unless one is a failure, which is then the last. -/
def visits (a : Axes) (w : World) : List Playback → List Playback
  | [] => []
  | p :: ps => if a.insists && p.isOpen w then [p] else p :: a.visits w ps

/-- Which playbacks are come to is decided by the settled world. -/
theorem visits_congr (a : Axes) (ps : List Playback) {w w' : World} (h : w.settled = w'.settled) :
    a.visits w ps = a.visits w' ps := by
  induction ps with
  | nil => rfl
  | cons p ps ih => rw [visits, visits, p.isOpen_congr h, ih]

theorem mem_of_mem_visits (a : Axes) {ps : List Playback} {w : World} {p : Playback} (h : p ∈ a.visits w ps) :
    p ∈ ps := by
  induction ps with
  | nil => exact h
  | cons q ps ih =>
    rw [visits] at h
    split at h
    · exact List.mem_cons.2 (Or.inl (List.mem_singleton.1 h))
    · rcases List.mem_cons.1 h with rfl | h
      · exact List.mem_cons_self
      · exact List.mem_cons_of_mem q (ih h)

/-- Evaluators that are all placeholders leave the world alone. -/
theorem eachUntilError_of_placeholders {es : List Evaluator} (h : es.any (!·.isPlaceholder) = false) (p : Playback)
    (s : Settings) (w : World) :
    Action.eachUntilError (fun e : Evaluator => e.evaluate p s) es w = ⟨.ok (es.map fun _ => 0), w, []⟩ := by
  induction es with
  | nil => rfl
  | cons e es ih =>
    simp only [List.any_cons, Bool.or_eq_false_iff, Bool.not_eq_false'] at h
    have he := Evaluator.evaluate_of_placeholder (p := p) (w := w) h.1 s
    rw [Action.eachUntilError_cons_ok (by rw [he]), he, ih h.2]
    rfl

/-- Evaluators of which one is no placeholder leave the world as resolving the playback does: the first of them resolves it, and
to resolve it once more changes nothing. -/
theorem eachUntilError_world_of_asks {es : List Evaluator} (h : es.any (!·.isPlaceholder) = true) (p : Playback)
    (s : Settings) (w : World) :
    (Action.eachUntilError (fun e : Evaluator => e.evaluate p s) es w).world = (p.resolve w).world := by
  induction es generalizing w with
  | nil => simp at h
  | cons e es ih =>
    cases he : e.isPlaceholder with
    | true =>
      have hes : es.any (!·.isPlaceholder) = true := by simpa [he] using h
      have hv := Evaluator.evaluate_of_placeholder (p := p) (w := w) he s
      rw [Action.eachUntilError_cons_ok (by rw [hv]), hv, ih hes]
    | false =>
      have hw := Evaluator.evaluate_world he p s w
      cases hv : (e.evaluate p s w).result with
      | error f => rw [Action.eachUntilError_cons_error (f := fun e : Evaluator => e.evaluate p s) hv, hw]
      | ok v =>
        rw [Action.eachUntilError_cons_ok (f := fun e : Evaluator => e.evaluate p s) hv, hw]
        cases hes : es.any (!·.isPlaceholder) with
        | true => rw [ih hes, p.resolve_world_resolve_world]
        | false => rw [eachUntilError_of_placeholders hes]

/-- Placing a playback leaves the world as resolving it does, if some axis has an evaluator. -/
theorem coordinates_world (a : Axes) (p : Playback) (w : World) :
    (a.coordinates p w).world = if a.asks then (p.resolve w).world else w := by
  cases h : a.asks with
  | true => exact eachUntilError_world_of_asks h p a.settings w
  | false => rw [coordinates, eachUntilError_of_placeholders h]; rfl

/-- Placing a playback is a question. -/
theorem isQuestion_coordinates (a : Axes) (p : Playback) : (a.coordinates p).IsQuestion :=
  Action.isQuestion_eachUntilError (fun e : Evaluator => e.isQuestion_evaluate p a.settings) a.evaluators

/-- Placing a playback fails if it leaves something open that is insisted on, and it fails at the first axis that has an
evaluator. -/
theorem coordinates_error_iff {a : Axes} {p : Playback} {w : World} {f : AssertionFailure} :
    (a.coordinates p w).result = .error f ↔
      a.settings.assertResolved = true ∧ a.evaluators.find? (!·.isPlaceholder) = some f.evaluator ∧
        (p.resolve w).result = .error f.cause := by
  rw [coordinates, Action.eachUntilError_error_iff fun e : Evaluator => e.isQuestion_evaluate p a.settings,
    List.find?_eq_some_iff_append]
  constructor
  · rintro ⟨before, e, after, hsplit, hbefore, he⟩
    obtain ⟨hask, hs, rfl, hr⟩ := Evaluator.evaluate_error_iff.1 he
    refine ⟨hs, ⟨by rw [hask]; rfl, before, after, hsplit, fun e' he' => ?_⟩, hr⟩
    -- an evaluator before the failing one that asked would have failed itself
    obtain ⟨v, hv⟩ := hbefore e' he'
    by_contra hask'
    have hfail := Evaluator.evaluate_error_iff (f := ⟨e', f.cause⟩).2 ⟨by simpa using hask', hs, rfl, hr⟩
    cases hv.symm.trans hfail
  · rintro ⟨hs, ⟨hask, before, after, hsplit, hbefore⟩, hr⟩
    refine ⟨before, f.evaluator, after, hsplit, fun e he => ⟨0, ?_⟩, ?_⟩
    · have he' : e.isPlaceholder = true := by simpa using hbefore e he
      rw [Evaluator.evaluate_of_placeholder he']
    · exact Evaluator.evaluate_error_iff.2 ⟨by simpa using hask, hs, rfl, hr⟩

/-- Placing a playback fails for some reason if it leaves something open that is insisted on. -/
theorem coordinates_fails_iff (a : Axes) (p : Playback) (w : World) :
    (∃ f, (a.coordinates p w).result = .error f) ↔ (a.insists && p.isOpen w) = true := by
  simp only [coordinates_error_iff, insists, Bool.and_eq_true, Playback.isOpen_iff, asks_iff]
  constructor
  · rintro ⟨f, hs, hfirst, hr⟩
    exact ⟨⟨⟨f.evaluator, hfirst⟩, hs⟩, f.cause, hr⟩
  · rintro ⟨⟨⟨e, hfirst⟩, hs⟩, cause, hr⟩
    exact ⟨⟨e, cause⟩, hs, hfirst, hr⟩

/-- Placing playbacks leaves the world that resolving them one after the other leaves, up to a failure. -/
theorem coordinatesAll_world (a : Axes) (ps : List Playback) (w : World) :
    (a.coordinatesAll ps w).world =
      if a.asks then (a.visits w ps).foldl (fun w p => (p.resolve w).world) w else w := by
  induction ps generalizing w with
  | nil => simp [coordinatesAll, visits]
  | cons p ps ih =>
    have hworld := a.coordinates_world p w
    have hfail := a.coordinates_fails_iff p w
    unfold coordinatesAll at ih ⊢
    cases hv : (a.coordinates p w).result with
    | error f =>
      rw [hv] at hfail
      rw [Action.eachUntilError_cons_error hv, hworld, visits, if_pos (hfail.1 ⟨f, rfl⟩)]
      rfl
    | ok v =>
      have hgo : ¬(a.insists && p.isOpen w) = true := by
        rw [← hfail, hv]
        simp
      rw [Action.eachUntilError_cons_ok hv, ih, hworld, visits, if_neg hgo]
      cases h : a.asks with
      | true => simp [a.visits_congr ps (p.settled_resolve_world w)]
      | false => simp

end Axes

/-! ## The events of an operation -/

/-- What can happen to motion joints. -/
inductive Event where
  /-- A playback is resolved. -/
  | resolved (p : Playback)
  /-- An actor's motion joint is set or cleared. -/
  | assigned (actor : Nat) (joint : Option Nat)

/-- The world after an event. -/
def Event.apply (w : World) : Event → World
  | .resolved p => (p.resolve w).world
  | .assigned n joint => w.setMotionJoint n joint

namespace Operation

/-- The events that an operation is made of, in order. The placeholder resolves nothing. -/
def events (w : World) : Operation → List Event
  | .resolve p => [.resolved p]
  | .evaluate e p _ => if e.isPlaceholder then [] else [.resolved p]
  | .sample p _ => [.resolved p]
  | .place a p => if a.asks then [.resolved p] else []
  | .placeAll a ps => if a.asks then (a.visits w ps).map .resolved else []
  | .assign n joint => [.assigned n joint]

/-- An operation leaves the world that its events lead to. -/
theorem run_world (op : Operation) (w : World) : (op.run w).world = (op.events w).foldl Event.apply w := by
  cases op with
  | resolve p => rfl
  | evaluate e p s =>
    show (e.evaluate p s w).world = _
    cases he : e.isPlaceholder with
    | true => simp [events, he, Evaluator.evaluate_of_placeholder he]
    | false => simp [events, he, Evaluator.evaluate_world he, Event.apply]
  | sample p s => exact p.sampler_world s w
  | place a p =>
    refine (a.coordinates_world p w).trans ?_
    cases h : a.asks <;> simp [events, h, Event.apply]
  | placeAll a ps =>
    refine (a.coordinatesAll_world ps w).trans ?_
    cases h : a.asks with
    | true => simp [events, h, List.foldl_map, Event.apply]
    | false => simp [events, h]
  | assign n joint => rfl

/-- The events of a run, in order. -/
def trace : List Operation → World → List Event
  | [], _ => []
  | op :: ops, w => op.events w ++ trace ops (op.run w).world

theorem runAll_cons (op : Operation) (ops : List Operation) (w : World) :
    runAll (op :: ops) w = ⟨(op.run w).result :: (runAll ops (op.run w).world).result,
      (runAll ops (op.run w).world).world, (op.run w).log ++ (runAll ops (op.run w).world).log⟩ :=
  Action.each_cons run op ops w

/-- A run leaves the world that its events lead to. -/
theorem runAll_world (ops : List Operation) (w : World) : (runAll ops w).world = (trace ops w).foldl Event.apply w := by
  induction ops generalizing w with
  | nil => rfl
  | cons op ops ih => rw [runAll_cons, trace, List.foldl_append, ih, ← run_world]

end Operation

end Gait
