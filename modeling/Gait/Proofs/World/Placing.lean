import Gait.Proofs.World.Events

/-!
# Placing many playbacks

Playbacks are placed one after the other, and axis by axis, in one world whose motion joints are written on the way. Still each
is placed as if it were the only one, and the whole fails as the first playback does that would fail if it were the only one
(`coordinatesAll_places_or_fails`): placing is a question, and questions are answered by the settled world. A failure leaves
the joints written down that the playbacks before the failing one asked for, and no others.
-/

namespace Gait

/-- Resolving playbacks one after the other leaves the settled world as it is. -/
theorem Playback.settled_foldl_resolve (ps : List Playback) (w : World) :
    (ps.foldl (fun w p => (p.resolve w).world) w).settled = w.settled := by
  induction ps generalizing w with
  | nil => rfl
  | cons p ps ih => rw [List.foldl_cons, ih, settled_resolve_world]

/-- Resolving playbacks one after the other settles the actors that they ask for and changes nothing else. -/
theorem Playback.getElem?_foldl_resolve (ps : List Playback) (w : World) (n : Nat) :
    (ps.foldl (fun w p => (p.resolve w).world) w).slots[n]? =
      (w.slots[n]?).map fun slot => if ps.any (·.target? == some n) then slot.settle else slot := by
  induction ps generalizing w with
  | nil => simp
  | cons p ps ih =>
    rw [List.foldl_cons, ih, resolve_world, List.any_cons]
    cases p.target? with
    | none => rfl
    | some m =>
      rw [Option.toList_some, List.foldl_cons, List.foldl_nil, World.getElem?_settle]
      cases w.slots[n]? with
      | none => rfl
      | some slot => by_cases hm : m = n <;> by_cases hps : ps.any (·.target? == some n) = true <;> simp [hm, hps]

namespace Axes

variable {a : Axes} {ps before after : List Playback} {p : Playback} {w : World} {f : AssertionFailure}

/-! ## Where a playback is placed -/

/-- The point at which a playback is placed if it is the only one: on each axis zero, if the axis is without an evaluator or the
playback leaves something open, and else the value that the evaluator has for the playback. -/
def IsPoint (a : Axes) (w : World) (p : Playback) (point : Coordinates) : Prop :=
  point.length = a.dimensions ∧
    List.Forall₂
      (fun (e : Evaluator) (v : Float32) =>
        if e.isPlaceholder || p.isOpen w then v = 0 else (e.evaluate p a.settings w).result = .ok v)
      a.evaluators point

/-- What an evaluator gives for a playback that leaves something open, if it does not fail, is zero. -/
theorem eq_zero_of_isOpen {e : Evaluator} {s : Settings} {v : Float32} (hopen : p.isOpen w = true)
    (h : (e.evaluate p s w).result = .ok v) : v = 0 := by
  cases he : e.isPlaceholder with
  | true =>
    rw [Evaluator.evaluate_of_placeholder he] at h
    exact (Except.ok.inj h).symm
  | false =>
    obtain ⟨cause, hr⟩ := Playback.isOpen_iff.1 hopen
    rw [Evaluator.evaluate_of_error he s hr] at h
    cases hs : s.assertResolved with
    | true => simp [hs] at h
    | false => simpa [hs, eq_comm] using h

/-- The coordinates of a playback are the point at which it is placed. -/
theorem isPoint_of_coordinates {point : Coordinates} (h : (a.coordinates p w).result = .ok point) :
    a.IsPoint w p point := by
  have hvalues := (Action.eachUntilError_ok_iff fun e : Evaluator => e.isQuestion_evaluate p a.settings).1 h
  refine ⟨hvalues.length_eq.symm, hvalues.imp fun e v hv => ?_⟩
  split
  · rename_i hzero
    rcases Bool.or_eq_true_iff.1 hzero with he | hopen
    · rw [Evaluator.evaluate_of_placeholder he] at hv
      exact (Except.ok.inj hv).symm
    · exact eq_zero_of_isOpen hopen hv
  · exact hv

/-! ## How placing many fails -/

/-- Placing many playbacks fails if one of them leaves something open that is insisted on: for what the first of these leaves
open, and at the first axis that has an evaluator. -/
theorem coordinatesAll_error_iff :
    (a.coordinatesAll ps w).result = .error f ↔
      a.settings.assertResolved = true ∧ a.evaluators.find? (!·.isPlaceholder) = some f.evaluator ∧
        ∃ before p after, ps = before ++ p :: after ∧ (∀ q ∈ before, q.isOpen w = false) ∧
          (p.resolve w).result = .error f.cause := by
  rw [coordinatesAll, Action.eachUntilError_error_iff a.isQuestion_coordinates]
  constructor
  · rintro ⟨before, p, after, hsplit, hbefore, hp⟩
    obtain ⟨hs, hfirst, hr⟩ := coordinates_error_iff.1 hp
    refine ⟨hs, hfirst, before, p, after, hsplit, fun q hq => ?_, hr⟩
    -- an open playback before the failing one would have failed itself
    obtain ⟨point, hpoint⟩ := hbefore q hq
    by_contra hopen
    obtain ⟨cause, hcause⟩ := Playback.isOpen_iff.1 (Bool.not_eq_false _ ▸ hopen)
    have hfail := coordinates_error_iff (f := ⟨f.evaluator, cause⟩).2 ⟨hs, hfirst, hcause⟩
    cases hpoint.symm.trans hfail
  · rintro ⟨hs, hfirst, before, p, after, hsplit, hbefore, hr⟩
    refine ⟨before, p, after, hsplit, fun q hq => ?_, coordinates_error_iff.2 ⟨hs, hfirst, hr⟩⟩
    cases hq' : (a.coordinates q w).result with
    | ok point => exact ⟨point, rfl⟩
    | error f' =>
      have hopen : q.isOpen w = true := Playback.isOpen_iff.2 ⟨_, (coordinates_error_iff.1 hq').2.2⟩
      rw [hbefore q hq] at hopen
      cases hopen

/-- Where open playbacks are failures, the first of them is the last that placing comes to. -/
theorem visits_of_isOpen (h : a.insists = true) (hbefore : ∀ q ∈ before, q.isOpen w = false) (hp : p.isOpen w = true) :
    a.visits w (before ++ p :: after) = before ++ [p] := by
  induction before with
  | nil => simp [visits, h, hp]
  | cons q before ih =>
    obtain ⟨hq, hrest⟩ := List.forall_mem_cons.1 hbefore
    rw [List.cons_append, visits, hq, Bool.and_false, if_neg Bool.false_ne_true, ih hrest, List.cons_append]

/-- A failure leaves the world that resolving the playbacks before the failing one leaves. -/
theorem coordinatesAll_world_of_isOpen (h : a.insists = true) (hbefore : ∀ q ∈ before, q.isOpen w = false)
    (hp : p.isOpen w = true) :
    (a.coordinatesAll (before ++ p :: after) w).world = before.foldl (fun w q => (q.resolve w).world) w := by
  have hasks : a.asks = true := (Bool.and_eq_true_iff.1 h).1
  have hsettled := Playback.settled_foldl_resolve before w
  obtain ⟨cause, hcause⟩ := Playback.isOpen_iff.1 ((p.isOpen_congr hsettled).trans hp)
  rw [coordinatesAll_world, if_pos hasks, visits_of_isOpen h hbefore hp, List.foldl_append, List.foldl_cons,
    List.foldl_nil, Playback.resolve_of_error hcause]

/-! ## Placing many -/

/-- Placing many playbacks gives each, in order, the point at which it is placed if it is the only one. It never fails unless
open playbacks are to be failures; then it fails if and only if some axis has an evaluator and some playback leaves something
open. The failure names the first axis with an evaluator and what the first open playback leaves open, and it leaves the
motion joints written down that the playbacks before that one ask for, and all else as it was. -/
theorem coordinatesAll_places_or_fails (a : Axes) (ps : List Playback) (w : World) :
    (∀ points, (a.coordinatesAll ps w).result = .ok points → List.Forall₂ (a.IsPoint w) ps points) ∧
      (a.settings.assertResolved = false → ∃ points, (a.coordinatesAll ps w).result = .ok points) ∧
      (a.settings.assertResolved = true →
        ((∃ f, (a.coordinatesAll ps w).result = .error f) ↔
          (∃ e ∈ a.evaluators, e.isPlaceholder = false) ∧ ∃ p ∈ ps, p.isOpen w = true)) ∧
      ∀ f, (a.coordinatesAll ps w).result = .error f →
        a.evaluators.find? (!·.isPlaceholder) = some f.evaluator ∧
          ∃ before p after, ps = before ++ p :: after ∧ (∀ q ∈ before, q.isOpen w = false) ∧
            (p.resolve w).result = .error f.cause ∧
            ∀ n, (a.coordinatesAll ps w).world.slots[n]? =
              (w.slots[n]?).map fun slot => if before.any (·.target? == some n) then slot.settle else slot := by
  refine ⟨fun points h => ?_, fun hs => ?_, fun hs => ⟨?_, ?_⟩, fun f h => ?_⟩
  · exact ((Action.eachUntilError_ok_iff a.isQuestion_coordinates).1 h).imp fun p point => isPoint_of_coordinates
  · cases hr : (a.coordinatesAll ps w).result with
    | ok points => exact ⟨points, rfl⟩
    | error f => exact absurd (hs.symm.trans (coordinatesAll_error_iff.1 hr).1) Bool.false_ne_true
  · rintro ⟨f, h⟩
    obtain ⟨-, hfirst, before, p, after, rfl, -, hp⟩ := coordinatesAll_error_iff.1 h
    exact ⟨⟨f.evaluator, List.mem_of_find?_eq_some hfirst, by simpa using List.find?_some hfirst⟩, p, by simp,
      Playback.isOpen_iff.2 ⟨f.cause, hp⟩⟩
  · rintro ⟨⟨e, he, hask⟩, q, hq, hopen⟩
    obtain ⟨e', hfirst⟩ := asks_iff.1 (List.any_eq_true.2 ⟨e, he, by simp [hask]⟩)
    -- the first open playback is the one that the failure is about
    have hexists : (ps.find? (·.isOpen w)).isSome := List.find?_isSome.2 ⟨q, hq, hopen⟩
    obtain ⟨p, hp⟩ := Option.isSome_iff_exists.1 hexists
    obtain ⟨hpopen, before, after, hsplit, hbefore⟩ := List.find?_eq_some_iff_append.1 hp
    obtain ⟨cause, hr⟩ := Playback.isOpen_iff.1 hpopen
    exact ⟨⟨e', cause⟩, coordinatesAll_error_iff.2 ⟨hs, hfirst, before, p, after, hsplit,
      fun q hq => by simpa using hbefore q hq, hr⟩⟩
  · obtain ⟨hs, hfirst, before, p, after, rfl, hbefore, hr⟩ := coordinatesAll_error_iff.1 h
    refine ⟨hfirst, before, p, after, rfl, hbefore, hr, fun n => ?_⟩
    have hinsists : a.insists = true := by rw [insists, asks_iff.2 ⟨_, hfirst⟩, hs]; rfl
    rw [coordinatesAll_world_of_isOpen hinsists hbefore (Playback.isOpen_iff.2 ⟨f.cause, hr⟩),
      Playback.getElem?_foldl_resolve]

end Axes

end Gait
