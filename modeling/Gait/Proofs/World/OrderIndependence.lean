import Gait.Proofs.World.Events

/-!
# The order of questions does not matter

Resolving, evaluating and sampling may write a motion joint that later questions read, also those asked through another instance
of the same actor. Still every question is answered as if it were the only one (`runAll_order_independent`): what is written is
the joint that would have been found anyway, so no question changes the settled world, and the settled world decides all
answers. Joints are written one actor at a time, and in any order the same ones.
-/

namespace Gait

namespace Operation

/-- Whether an operation only asks: it resolves, evaluates without insisting, or samples. -/
def isQuery : Operation → Bool
  | .resolve _ => true
  | .evaluate _ _ s => !s.assertResolved
  | .sample _ _ => true
  | .place _ _ => false
  | .placeAll _ _ => false
  | .assign _ _ => false

/-- The actors whose joint a question asks for. -/
def subjects : Operation → List Nat
  | .resolve p => p.target?.toList
  | .evaluate e p _ => if e.isPlaceholder then [] else p.target?.toList
  | .sample p _ => p.target?.toList
  | .place _ _ => []
  | .placeAll _ _ => []
  | .assign _ _ => []

/-- A question settles the actors it asks for and changes nothing else. -/
theorem run_world_of_isQuery {op : Operation} (h : op.isQuery = true) (w : World) :
    (op.run w).world = op.subjects.foldl World.settle w := by
  rw [run_world]
  cases op with
  | resolve p => exact p.resolve_world w
  | evaluate e p s =>
    cases he : e.isPlaceholder with
    | true => simp [events, subjects, he]
    | false => simpa [events, subjects, he, Event.apply] using p.resolve_world w
  | sample p s => exact p.resolve_world w
  | place a p => cases h
  | placeAll a ps => cases h
  | assign n joint => cases h

/-- The answer to a question is decided by the settled world. -/
theorem run_result_congr {op : Operation} (h : op.isQuery = true) {w w' : World} (hw : w.settled = w'.settled) :
    (op.run w).result = (op.run w').result := by
  cases op with
  | resolve p => exact congrArg Answer.motion (p.resolve_result_congr hw)
  | evaluate e p s => exact congrArg Answer.value (e.evaluate_result_congr p s hw)
  | sample p s => exact congrArg Answer.sampler (p.sampler_result_congr s hw)
  | place a p => cases h
  | placeAll a ps => cases h
  | assign n joint => cases h

theorem settled_run_world {op : Operation} (h : op.isQuery = true) (w : World) :
    (op.run w).world.settled = w.settled := by
  rw [run_world_of_isQuery h, World.settled_foldl_settle]

/-! ## Runs of questions -/

/-- In a run of questions each is answered as in the world that the run starts from. -/
theorem runAll_result_of_isQuery {ops : List Operation} (h : ∀ op ∈ ops, op.isQuery = true) (w : World) :
    (runAll ops w).result = ops.map fun op => (op.run w).result := by
  induction ops generalizing w with
  | nil => rfl
  | cons op ops ih =>
    have hop := h op List.mem_cons_self
    have hops : ∀ op' ∈ ops, op'.isQuery = true := fun op' hm => h op' (List.mem_cons_of_mem op hm)
    rw [runAll_cons, ih hops, List.map_cons]
    refine congrArg _ (List.map_congr_left fun op' hm => ?_)
    exact run_result_congr (hops op' hm) (settled_run_world hop w)

/-- A run of questions settles all the actors that any of them asks for. -/
theorem runAll_world_of_isQuery {ops : List Operation} (h : ∀ op ∈ ops, op.isQuery = true) (w : World) :
    (runAll ops w).world = (ops.flatMap subjects).foldl World.settle w := by
  induction ops generalizing w with
  | nil => rfl
  | cons op ops ih =>
    rw [runAll_cons, ih fun op' hm => h op' (List.mem_cons_of_mem op hm), run_world_of_isQuery (h op List.mem_cons_self),
      List.flatMap_cons, List.foldl_append]

/-- Each question of a run is answered as if it were asked alone, and so in any order; and in any order the run leaves the
same world, with the same motion joints. -/
theorem runAll_order_independent (w : World) (ops : List Operation) (h : ∀ op ∈ ops, op.isQuery = true) :
    (runAll ops w).result = ops.map (fun op => (op.run w).result) ∧
      ∀ ops', ops'.Perm ops →
        (runAll ops' w).result = ops'.map (fun op => (op.run w).result) ∧
          (runAll ops' w).world = (runAll ops w).world ∧
          (runAll ops' w).world.motionJoints = (runAll ops w).world.motionJoints := by
  refine ⟨runAll_result_of_isQuery h w, fun ops' hperm => ?_⟩
  have h' : ∀ op ∈ ops', op.isQuery = true := fun op hm => h op (hperm.mem_iff.1 hm)
  have hworld : (runAll ops' w).world = (runAll ops w).world := by
    rw [runAll_world_of_isQuery h', runAll_world_of_isQuery h]
    exact World.foldl_settle_perm (hperm.flatMap_right subjects) w
  exact ⟨runAll_result_of_isQuery h' w, hworld, congrArg World.motionJoints hworld⟩

namespace SharedActor

/-- A clip in which nothing moves. -/
def still : Clip Float32 := ⟨1, 30, fun _ _ _ _ => Transform.identity⟩

/-- A world with one actor of two joints, whose motion joint is open. -/
def world : World :=
  World.empty.addActor (Actor.ofSkeleton "hero" ((Skeleton.empty.addJoint "root" none).addJoint "hips" (some 0))) none

/-- Three questions: one without a clip, and two about instances of the one actor. -/
def queries : List Operation :=
  [.evaluate .moveSpeed { actorInstance := some ⟨some 0⟩ } {},
    .resolve { clip := some still, actorInstance := some ⟨some 0⟩ },
    .sample { clip := some still, actorInstance := some ⟨some 0⟩, retargeting := true } {}]

/-- The three questions, asked in the reverse order, are answered as each alone, and find the same motion joint. -/
theorem runAll_reverse :
    (∀ op ∈ queries, op.isQuery = true) ∧
      (runAll queries.reverse world).result = queries.reverse.map (fun op => (op.run world).result) ∧
      (runAll queries.reverse world).world.motionJoints = (runAll queries world).world.motionJoints := by
  have h : ∀ op ∈ queries, op.isQuery = true := by simp [queries, isQuery]
  obtain ⟨hresult, -, hjoints⟩ := (runAll_order_independent world queries h).2 queries.reverse (List.reverse_perm queries)
  exact ⟨h, hresult, hjoints⟩

end SharedActor

end Operation

end Gait
