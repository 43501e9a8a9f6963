import Mathlib
import TensorGraph.Proofs.Evaluation.Follow
import TensorGraph.Proofs.Evaluation.Storable

/-!
# The iterations of a loop

Input:

* a loop that succeeds, and what it is given: a trip count, a condition, and values to carry.

Algorithm:

* the states between the iterations form a chain, in which each state follows from the one before
  (`LoopState.Iteration`).  The chain ends when no trip is left or when the condition fails
  (`LoopState.exists_states_of_iterate`);
* the rows of the last state hold what the iterations add to the stacks, the last one in front
  (`LoopState.rows_of_iterations`);
* a stack has tensors of a common shape one after the other (`stackOf_of_stackTensors`).

Main results:

* `LoopCourse.Follows.unique`: what a loop is given determines the course of its iterations;
* `runLoop_computes`: a loop that succeeds has such a course, passes on what its last iteration
  does, and stacks the other values of all iterations.
-/

namespace TensorGraph

/-! ## Stacks -/

/-- The elements between two positions. -/
def Elements.between (start stop : Nat) : Elements → Elements
  | .float32 xs => .float32 (xs.extract start stop)
  | .float64 xs => .float64 (xs.extract start stop)
  | .int64 xs => .int64 (xs.extract start stop)
  | .int32 xs => .int32 (xs.extract start stop)
  | .int8 xs => .int8 (xs.extract start stop)
  | .uint8 xs => .uint8 (xs.extract start stop)
  | .bool xs => .bool (xs.extract start stop)
  | .opaqueOf type => .opaqueOf type

/-- Whether a tensor holds tensors of a common shape one after the other, along a new first axis. -/
structure Tensor.StackOf (u : Tensor) (ts : List Tensor) (common : List Nat) : Prop where
  computed : u.Computed
  shape : u.shape = ts.length :: common
  /-- What the stack has at an index of the first axis. -/
  rows : ∀ i t, ts[i]? = some t → t.shape = common ∧
    t.elements = u.elements.between (i * elementCount common) ((i + 1) * elementCount common)

/-- Types of elements that are stored as they are. -/
class StoredElement (α : Type) [Element α] : Prop extends LawfulElement α where
  wrap_of_unwrap? : ∀ (e : Elements) (xs : Array α), Element.unwrap? e = some xs →
    e = Element.wrap xs
  between_wrap : ∀ (start stop : Nat) (xs : Array α),
    (Element.wrap xs).between start stop = Element.wrap (xs.extract start stop)

instance : StoredElement Binary32 where
  wrap_of_unwrap? e xs h := by cases e <;> cases h; rfl
  between_wrap _ _ _ := rfl

instance : StoredElement Binary64 where
  wrap_of_unwrap? e xs h := by cases e <;> cases h; rfl
  between_wrap _ _ _ := rfl

instance : StoredElement Int64 where
  wrap_of_unwrap? e xs h := by cases e <;> cases h; rfl
  between_wrap _ _ _ := rfl

instance : StoredElement Int32 where
  wrap_of_unwrap? e xs h := by cases e <;> cases h; rfl
  between_wrap _ _ _ := rfl

instance : StoredElement Int8 where
  wrap_of_unwrap? e xs h := by cases e <;> cases h; rfl
  between_wrap _ _ _ := rfl

instance : StoredElement UInt8 where
  wrap_of_unwrap? e xs h := by cases e <;> cases h; rfl
  between_wrap _ _ _ := rfl

instance : StoredElement Bool where
  wrap_of_unwrap? e xs h := by cases e <;> cases h; rfl
  between_wrap _ _ _ := rfl

theorem ElementType.exists_of_dispatch {β : Type} {type : ElementType}
    {f : (α : Type) → [Element α] → OpResult β} {u : β} (h : type.dispatch f = .ok u) :
    ∃ (α : Type) (_ : Element α), StoredElement α ∧ f α = .ok u := by
  cases type <;> first | exact ⟨_, _, inferInstance, h⟩ | cases h

/-- Arrays of the same size that are put together can be taken apart again. -/
theorem between_wrap_flatMap {α β : Type} [Element α] [StoredElement α] {f : β → Array α}
    {size : Nat} {l : List β} (h : ∀ b ∈ l, (f b).size = size) {i : Nat} {b : β}
    (hi : l[i]? = some b) :
    (Element.wrap (l.flatMap fun b => (f b).toList).toArray).between (i * size) ((i + 1) * size) =
      Element.wrap (f b) := by
  rw [StoredElement.between_wrap]
  refine congrArg _ (Array.toList_inj.1 ?_)
  rw [Array.toList_extract, List.extract_eq_take_drop, ← Nat.sub_mul, Nat.add_sub_cancel_left,
    Nat.one_mul]
  exact take_drop_flatMap h hi

/-- A tensor as the only row of another one. -/
def Tensor.asRow (t : Tensor) : Tensor := { shape := 1 :: t.shape, elements := t.elements }

/-- Rows are counted. -/
theorem foldl_asRow (ts : List Tensor) (n : Nat) :
    (ts.map Tensor.asRow).foldl (fun size t => size + t.shape.getD 0 0) n = n + ts.length := by
  induction ts generalizing n with
  | nil => rfl
  | cons t rest ih =>
      have single : t.asRow.shape.getD 0 0 = 1 := rfl
      rw [List.map_cons, List.foldl_cons, ih, List.length_cons, single]
      omega

/-- Tensors of a common shape that are joined as rows. -/
theorem stackOf_of_concatAt {α : Type} [Element α] [StoredElement α] {ts : List Tensor} {u : Tensor}
    (counted : ∀ t ∈ ts, t.Counted) (h : concatAt α 0 (ts.map Tensor.asRow) = .ok u) :
    ∃ common, u.StackOf ts common := by
  cases ts with
  | nil => cases h
  | cons t rest =>
      obtain ⟨same, parts, hparts, rfl⟩ := concatAt_eq_ok_iff.1 h
      have common : ∀ s ∈ t :: rest, s.shape = t.shape :=
        fun s hs => (same _ (List.mem_map_of_mem hs)).2
      replace hparts : List.Forall₂ (fun (s : Tensor) (p : Array α × Nat) =>
          s.elements = Element.wrap p.1 ∧ p.1.size = elementCount t.shape ∧
            p.2 = elementCount t.shape) (t :: rest) parts := by
        rw [← List.map_cons, List.forall₂_map_left_iff] at hparts
        refine forall₂_imp_of_mem hparts fun s hs p ⟨elements, size⟩ => ?_
        rw [← common s hs]
        refine ⟨StoredElement.wrap_of_unwrap? _ _ elements, ?_, ?_⟩
        · exact (counted s hs).size_of_array? elements
        · exact size.trans ((elementCount_cons 1 s.shape).trans (Nat.one_mul _))
      have size : ∀ p ∈ parts, p.1.size = elementCount t.shape := by
        intro p hp
        obtain ⟨s, -, -, size, -⟩ := exists_left_of_forall₂ hparts hp
        exact size
      have out : ((List.range (elementCount (t.asRow.shape.take 0))).flatMap fun i =>
          parts.flatMap fun p => (p.1.extract (i * p.2) ((i + 1) * p.2)).toList) =
          parts.flatMap fun p => p.1.toList := by
        rw [List.take_zero, elementCount_nil, List.range_one, List.flatMap_singleton]
        refine List.flatMap_congr fun p hp => ?_
        obtain ⟨s, -, -, size, size'⟩ := exists_left_of_forall₂ hparts hp
        simp [size, size']
      have shape : t.asRow.shape.set 0 ((t.asRow :: rest.map Tensor.asRow).foldl
          (fun size s => size + s.shape.getD 0 0) 0) = (t :: rest).length :: t.shape := by
        rw [← List.map_cons, foldl_asRow, Nat.zero_add]
        rfl
      rw [out, shape]
      refine ⟨t.shape, ⟨Tensor.computed_ofArray ?_, rfl, fun i s hi => ?_⟩⟩
      · rw [List.size_toArray, length_flatMap_of_length size, ← hparts.length_eq, elementCount_cons]
      · refine ⟨common s (List.mem_of_getElem? hi), ?_⟩
        have rel := rel_getElem? hparts i
        rw [hi] at rel
        generalize hp : parts[i]? = found at rel
        cases rel with
        | some rel => exact rel.1.trans (between_wrap_flatMap size hp).symm

theorem stackOf_of_stackTensors {ts : List Tensor} {u : Tensor} (counted : ∀ t ∈ ts, t.Counted)
    (h : stackTensors ts = .ok u) : ∃ common, u.StackOf ts common := by
  obtain ⟨rows, hrows, h⟩ := bind_eq_ok_iff.1 h
  obtain rfl : rows = ts.map Tensor.asRow := by
    refine eq_map_of_forall₂ ((mapM_eq_ok_iff.1 hrows).imp fun t row hrow => ?_)
    unfold reshapeOrFault Tensor.reshaped? at hrow
    split at hrow
    · cases hrow
      rfl
    · cases hrow
  cases ts with
  | nil => cases h
  | cons t rest =>
      rw [List.map_cons] at h
      dsimp only at h
      split at h
      · cases h
      · rw [← List.map_cons] at h
        obtain ⟨α, _, _, h⟩ := ElementType.exists_of_dispatch h
        exact stackOf_of_concatAt counted h

/-! ## Iterations -/

namespace LoopState

variable {runBody : LoopState → RunResult (List Tensor)} {fault : OpFault → RunError}
  {conditional : Bool} {s s' final : LoopState}

/-- Whether one iteration leads from a state to another one. -/
structure Iteration (runBody : LoopState → RunResult (List Tensor)) (conditional : Bool)
    (s s' : LoopState) (next : Tensor) (row : List Tensor) : Prop where
  goes : s.condition = true
  run : runBody s = .ok (next :: (s'.carried ++ row))
  iteration : s'.iteration = s.iteration + 1
  condition : if conditional then conditionOf next = .ok s'.condition else s'.condition = true
  carried : s'.carried.length = s.carried.length
  rows : s'.rows = row :: s.rows

/-- What a body returns is divided into the condition, the values that are passed on, and a row. -/
theorem iteration_of_next {outputs : List Tensor} (goes : s.condition = true)
    (run : runBody s = .ok outputs) (enough : s.carried.length < outputs.length)
    (h : s.next conditional outputs = .ok s') :
    ∃ next row, Iteration runBody conditional s s' next row := by
  cases outputs with
  | nil => cases h
  | cons next rest =>
      have row : rest.take s.carried.length ++ rest.drop s.carried.length = rest :=
        List.take_append_drop ..
      have carried : (rest.take s.carried.length).length = s.carried.length :=
        List.length_take_of_le (Nat.le_of_lt_succ enough)
      unfold LoopState.next at h
      dsimp only at h
      refine ⟨next, rest.drop s.carried.length, ?_⟩
      split at h
      · rename_i conditional
        obtain ⟨condition, hcondition, h⟩ := bind_eq_ok_iff.1 h
        cases h
        exact ⟨goes, by rwa [row], rfl, by rwa [if_pos conditional], carried, rfl⟩
      · rename_i unconditional
        cases h
        exact ⟨goes, by rwa [row], rfl, by rwa [if_neg unconditional], carried, rfl⟩

/-- The states between the iterations of a loop.  It ends when there is no trip left or when the
condition fails. -/
theorem exists_states_of_iterate {size : Nat}
    (returns : ∀ s outputs, runBody s = .ok outputs → outputs.length = size) {trips : Nat}
    (fits : s.carried.length < size) (h : iterate runBody fault conditional trips s = .ok final) :
    ∃ (count : Nat) (states : Nat → LoopState), count ≤ trips ∧ states 0 = s ∧
      states count = final ∧
      (∀ i < count, ∃ next row,
        Iteration runBody conditional (states i) (states (i + 1)) next row) ∧
      (count = trips ∨ final.condition = false) := by
  induction trips generalizing s with
  | zero =>
      cases h
      exact ⟨0, fun _ => final, Nat.le_refl _, rfl, rfl, fun i hi => absurd hi i.not_lt_zero,
        .inl rfl⟩
  | succ trips ih =>
      unfold iterate at h
      split at h
      · rename_i goes
        obtain ⟨outputs, houtputs, h⟩ := bind_eq_ok_iff.1 h
        obtain ⟨s', hs', h⟩ := bind_eq_ok_iff.1 h
        have enough : s.carried.length < outputs.length := by rwa [returns s outputs houtputs]
        obtain ⟨next, row, first⟩ :=
          iteration_of_next goes houtputs enough (mapError_eq_ok_iff.1 hs')
        obtain ⟨count, states, bound, rfl, stop, each, stops⟩ := ih (by rwa [first.carried]) h
        refine ⟨count + 1, fun i => i.casesOn s states, Nat.succ_le_succ bound, rfl, stop, ?_,
          stops.imp_left fun h => congrArg _ h⟩
        rintro (_ | i) hi
        · exact ⟨next, row, first⟩
        · exact each i (Nat.lt_of_succ_lt_succ hi)
      · rename_i fails
        cases h
        exact ⟨0, fun _ => final, Nat.zero_le _, rfl, rfl, fun i hi => absurd hi i.not_lt_zero,
          .inr (Bool.eq_false_iff.2 fails)⟩

/-- What the states of a loop have collected. -/
theorem rows_of_iterations {states : Nat → LoopState} {count : Nat}
    (start : (states 0).rows = [] ∧ (states 0).iteration = 0)
    (each : ∀ i < count, ∃ next row,
      Iteration runBody conditional (states i) (states (i + 1)) next row)
    {i : Nat} (hi : i ≤ count) :
    (states i).iteration = i ∧ (states i).carried.length = (states 0).carried.length ∧
      (states i).rows.reverse = (List.range i).map fun k => (states (k + 1)).rows.headD [] := by
  induction i with
  | zero => simp [start.1, start.2]
  | succ i ih =>
      obtain ⟨iteration, carried, rows⟩ := ih (Nat.le_of_succ_le hi)
      obtain ⟨next, row, step⟩ := each i hi
      refine ⟨step.iteration.trans (congrArg _ iteration), step.carried.trans carried, ?_⟩
      rw [List.range_succ, List.map_append, ← rows, List.map_singleton, step.rows,
        List.reverse_cons]
      rfl

/-- The outputs of a loop are the values that it passes on, and then the stacks. -/
theorem outputs_eq_ok {body : Graph} {outs : List Tensor} (h : s.outputs body = .ok outs) :
    ∃ scans, outs = s.carried ++ scans ∧
      scans.length = body.outputs.length - (s.carried.length + 1) ∧
      ∀ j u, scans[j]? = some u → ∃ declared,
        body.outputs[s.carried.length + 1 + j]? = some declared ∧ s.stackAt declared j = .ok u := by
  obtain ⟨scans, hscans, h⟩ := bind_eq_ok_iff.1 h
  cases h
  have all := mapM_eq_ok_iff.1 hscans
  refine ⟨scans, rfl, ?_, fun j u hj => ?_⟩
  · rw [← all.length_eq, List.length_zipIdx, List.length_drop]
  · have rel := rel_getElem? all j
    rw [hj] at rel
    generalize hp : (List.zipIdx _)[j]? = found at rel
    cases rel with
    | @some p _ rel =>
        rw [List.getElem?_zipIdx] at hp
        obtain ⟨declared, hd, rfl⟩ := Option.map_eq_some_iff.1 hp
        rw [List.getElem?_drop] at hd
        rw [Nat.zero_add] at rel
        exact ⟨declared, hd, rel⟩

end LoopState

/-! ## Courses -/

/-- What the iterations of a loop are given and return, by their numbers. -/
structure LoopCourse where
  /-- The number of iterations. -/
  count : Nat
  /-- The condition before an iteration, and at last that after all of them. -/
  condition : Nat → Bool
  /-- The values that an iteration is given, and at last those that the loop passes on. -/
  carried : Nat → List Tensor
  /-- The values of an iteration that are stacked. -/
  scanned : Nat → List Tensor

namespace LoopCourse

/-- Whether iterations are those of a loop that is given some inputs. -/
structure Follows (c : LoopCourse) (runBody : Scope Tensor → RunResult (List Tensor))
    (names : List String) (l : LoopInputs) : Prop where
  condition : c.condition 0 = l.condition.getD true
  carried : c.carried 0 = l.carried
  /-- The loop goes on while the condition holds and there are trips left. -/
  goes : ∀ i < c.count, c.condition i = true ∧ ∀ m, l.trips = some m → (i : Int) < m
  /-- The body is run on the number of the iteration, the condition and the values that were passed
  on.  The condition that it returns matters if the loop was given one. -/
  run : ∀ i < c.count, ∃ (k : Int64) (next : Tensor), k.toInt = i ∧
    runBody (.ofBindings (names.zip (.scalar k :: .scalar (c.condition i) :: c.carried i))) =
      .ok (next :: (c.carried (i + 1) ++ c.scanned i)) ∧
    (c.carried (i + 1)).length = l.carried.length ∧
    if l.condition.isSome then conditionOf next = .ok (c.condition (i + 1))
    else c.condition (i + 1) = true
  /-- After the last iteration there is no trip left, or the condition fails. -/
  stops : (∃ m, l.trips = some m ∧ m ≤ c.count) ∨
    (l.condition.isSome = true ∧ c.condition c.count = false)

/-- Whether a tensor is the stack of the values of all iterations at a position.  Without iterations
it is a declaration that says the shape of the values and their type. -/
def Collects (c : LoopCourse) (declared : ValueInfo) (position : Nat) (u : Tensor) : Prop :=
  ∃ values common,
    (List.range c.count).map (fun i => (c.scanned i)[position]?) = values.map some ∧
    u.StackOf values common ∧
    (c.count = 0 →
      declared.shape.bind Dim.sizes? = some common ∧ declared.type = some u.elementType)

end LoopCourse

/-- Whether a number of iterations is the integer in a tensor. -/
def ReadTrips (t : Tensor) (trips : Int) : Prop :=
  ∃ v : Int64, t.item? Int64 = some v ∧ trips = v.toInt

/-- Whether a loop is given some inputs: the trip count, the condition, and the values that it
carries. -/
structure LoopInputs.ReadFrom (l : LoopInputs) (inputs : Inputs) : Prop where
  trips : Option.Rel ReadTrips (inputs.get? 0) l.trips
  condition : Option.Rel (fun t c => conditionOf t = .ok c) (inputs.get? 1) l.condition
  carried : inputs.drop 2 = l.carried.map some
  ends : l.trips.isSome = true ∨ l.condition.isSome = true

namespace LoopInputs

/-- The inputs are read one after the other. -/
theorem ofInputs_eq (inputs : Inputs) :
    ofInputs inputs =
      ((inputs.get? 0).elim (.ok none) fun t => (fun v : Int64 => some v.toInt) <$>
        orFault (.invalidValue "trip count must be an int64 scalar") (t.item? Int64)) >>= fun trips =>
      ((inputs.get? 1).elim (.ok none) fun t => some <$> conditionOf t) >>= fun condition =>
      if trips.isNone && condition.isNone then
        .error (.unsupportedValue "loop has neither a trip count nor a condition")
      else (inputs.drop 2).mapM (orFault .missingInputs) >>= fun carried =>
        .ok { trips := trips, condition := condition, carried := carried } := by
  unfold ofInputs
  cases inputs.get? 0 <;> cases inputs.get? 1 <;> rfl

theorem readFrom_of_ofInputs {inputs : Inputs} {l : LoopInputs} (h : ofInputs inputs = .ok l) :
    l.ReadFrom inputs := by
  rw [ofInputs_eq] at h
  obtain ⟨trips, htrips, h⟩ := bind_eq_ok_iff.1 h
  obtain ⟨condition, hcondition, h⟩ := bind_eq_ok_iff.1 h
  split at h
  · cases h
  · rename_i given
    obtain ⟨carried, hcarried, h⟩ := bind_eq_ok_iff.1 h
    cases h
    refine ⟨?_, ?_, ?_, ?_⟩
    · cases ht : inputs.get? 0 with
      | none =>
          rw [ht] at htrips
          cases htrips
          exact .none
      | some t =>
          rw [ht] at htrips
          obtain ⟨v, hv, rfl⟩ := map_eq_ok_iff.1 htrips
          exact .some ⟨v, orFault_eq_ok_iff.1 hv, rfl⟩
    · cases ht : inputs.get? 1 with
      | none =>
          rw [ht] at hcondition
          cases hcondition
          exact .none
      | some t =>
          rw [ht] at hcondition
          obtain ⟨c, hc, rfl⟩ := map_eq_ok_iff.1 hcondition
          exact .some hc
    · rw [← List.forall₂_eq_eq_eq, List.forall₂_map_right_iff]
      exact (mapM_eq_ok_iff.1 hcarried).imp fun _ _ => orFault_eq_ok_iff.1
    · cases trips <;> cases condition <;> simp_all

theorem ReadFrom.maxTrips_le {inputs : Inputs} {l : LoopInputs} (h : l.ReadFrom inputs) :
    l.maxTrips ≤ Int64.size / 2 := by
  have trips := h.trips
  unfold maxTrips
  generalize inputs.get? 0 = o at trips
  generalize l.trips = given at trips ⊢
  cases trips with
  | none => exact Nat.le_refl _
  | some trips =>
      obtain ⟨v, -, rfl⟩ := trips
      have bound : v.toInt < 2 ^ 63 := Int64.toInt_lt v
      rw [Option.map_some, Option.getD_some, Int64.size]
      omega

end LoopInputs

/-- The course through some states. -/
def LoopCourse.ofStates (count : Nat) (states : Nat → LoopState) : LoopCourse where
  count := count
  condition i := (states i).condition
  carried i := (states i).carried
  scanned i := (states (i + 1)).rows.headD []

/-- The condition holds on unless the loop was given one. -/
theorem LoopState.condition_of_unconditional {runBody : LoopState → RunResult (List Tensor)}
    {states : Nat → LoopState} {count : Nat} (start : (states 0).condition = true)
    (each : ∀ i < count, ∃ next row, Iteration runBody false (states i) (states (i + 1)) next row) :
    (states count).condition = true := by
  cases count with
  | zero => exact start
  | succ i =>
      obtain ⟨next, row, step⟩ := each i (Nat.lt_succ_self i)
      simpa using step.condition

section

variable {runBody : Scope Tensor → RunResult (List Tensor)} {names : List String} {l : LoopInputs}
  {size : Nat}

/-- When the iterations have ended, there is no trip left, or the condition that the loop was given
fails. -/
theorem LoopState.stops_of_iterations {runBody : LoopState → RunResult (List Tensor)}
    {states : Nat → LoopState} {count : Nat} (start : (states 0).condition = l.condition.getD true)
    (each : ∀ i < count, ∃ next row,
      Iteration runBody l.condition.isSome (states i) (states (i + 1)) next row)
    (stops : count = l.maxTrips ∨ (states count).condition = false)
    (ended : ¬ (l.trips.isNone && (states count).condition) = true) :
    (∃ m, l.trips = some m ∧ m ≤ count) ∨
      (l.condition.isSome = true ∧ (states count).condition = false) := by
  by_cases last : (states count).condition = false
  · refine .inr ⟨?_, last⟩
    cases hc : l.condition with
    | some c => rfl
    | none =>
        rw [hc] at each start
        rw [condition_of_unconditional start each] at last
        cases last
  · obtain rfl := stops.resolve_right last
    left
    cases hm : l.trips with
    | none =>
        rw [hm, Bool.eq_true_of_not_eq_false last] at ended
        exact absurd rfl ended
    | some m =>
        refine ⟨m, rfl, ?_⟩
        rw [LoopInputs.maxTrips, hm]
        exact Int.self_le_toNat m

/-- The iterations of a loop, whose last state has the values that are passed on and a row for each of
them. -/
theorem LoopState.exists_course {inputs : Inputs} {fault : OpFault → RunError} {final : LoopState}
    (given : l.ReadFrom inputs) (fits : l.carried.length < size)
    (returns : ∀ given outs, runBody given = .ok outs → outs.length = size)
    (h : iterate (fun s => runBody (s.bodyInputs names)) fault l.condition.isSome l.maxTrips
      { condition := l.condition.getD true, carried := l.carried } = .ok final)
    (ended : ¬ (l.trips.isNone && final.condition) = true) :
    ∃ c : LoopCourse, c.Follows runBody names l ∧ c.carried c.count = final.carried ∧
      final.carried.length = l.carried.length ∧
      final.rows.reverse = (List.range c.count).map c.scanned := by
  obtain ⟨count, states, bound, start, rfl, each, stops⟩ :=
    exists_states_of_iterate (fun s outs => returns _ outs) fits h
  have collected : ∀ i ≤ count, (states i).iteration = i ∧
      (states i).carried.length = l.carried.length ∧
      (states i).rows.reverse = (List.range i).map fun k => (states (k + 1)).rows.headD [] := by
    intro i hi
    have := rows_of_iterations (by rw [start]; exact ⟨rfl, rfl⟩) each hi
    rwa [start] at this
  refine ⟨.ofStates count states, ?_, rfl, (collected count (Nat.le_refl _)).2⟩
  refine ⟨congrArg LoopState.condition start, congrArg LoopState.carried start, ?_, ?_, ?_⟩
  · intro i hi
    obtain ⟨next, row, step⟩ := each i hi
    refine ⟨step.goes, fun m hm => ?_⟩
    have trip : i < l.maxTrips := Nat.lt_of_lt_of_le hi bound
    rw [LoopInputs.maxTrips, hm, Option.map_some, Option.getD_some] at trip
    omega
  · intro i hi
    obtain ⟨next, row, step⟩ := each i hi
    obtain ⟨iteration, carried, -⟩ := collected i (Nat.le_of_lt hi)
    have scanned : (LoopCourse.ofStates count states).scanned i = row :=
      congrArg (List.headD · []) step.rows
    have countable : i < Int64.size / 2 :=
      Nat.lt_of_lt_of_le (Nat.lt_of_lt_of_le hi bound) given.maxTrips_le
    refine ⟨Int64.ofNat i, next, Int64.toInt_ofNat_of_lt countable, ?_, step.carried.trans carried,
      step.condition⟩
    rw [scanned]
    have run := step.run
    unfold bodyInputs at run
    rwa [iteration] at run
  · exact stops_of_iterations (congrArg LoopState.condition start) each stops ended

theorem LoopCourse.Follows.length_scanned {c : LoopCourse} (h : c.Follows runBody names l)
    (returns : ∀ given outs, runBody given = .ok outs → outs.length = size) :
    ∀ i < c.count, (c.scanned i).length + l.carried.length + 1 = size := by
  intro i hi
  obtain ⟨k, next, -, run, carried, -⟩ := h.run i hi
  have := returns _ _ run
  simp only [List.length_cons, List.length_append] at this
  omega

section

variable {c c' : LoopCourse}

/-- The same values are passed on up to an iteration that both courses have. -/
theorem LoopCourse.Follows.agree (h : c.Follows runBody names l) (h' : c'.Follows runBody names l)
    {i : Nat} (hi : i ≤ c.count) (hi' : i ≤ c'.count) :
    c.condition i = c'.condition i ∧ c.carried i = c'.carried i ∧
      ∀ k < i, c.scanned k = c'.scanned k := by
  induction i with
  | zero =>
      exact ⟨h.condition.trans h'.condition.symm, h.carried.trans h'.carried.symm,
        fun k hk => absurd hk k.not_lt_zero⟩
  | succ i ih =>
      obtain ⟨condition, carried, scanned⟩ := ih (Nat.le_of_succ_le hi) (Nat.le_of_succ_le hi')
      obtain ⟨k, next, hk, run, length, hnext⟩ := h.run i hi
      obtain ⟨k', next', hk', run', length', hnext'⟩ := h'.run i hi'
      obtain rfl : k = k' := Int64.toInt_inj.1 (hk.trans hk'.symm)
      rw [condition, carried, run', Except.ok.injEq, List.cons.injEq] at run
      obtain ⟨rfl, rest⟩ := run
      obtain ⟨hcarried, hscanned⟩ := List.append_inj rest (length'.trans length.symm)
      refine ⟨?_, hcarried.symm, fun j hj => ?_⟩
      · split at hnext
        · rename_i conditional
          rw [if_pos conditional, hnext] at hnext'
          exact Except.ok.inj hnext'
        · rename_i unconditional
          rw [if_neg unconditional] at hnext'
          exact hnext.trans hnext'.symm
      · rcases Nat.lt_succ_iff_lt_or_eq.1 hj with hj | rfl
        · exact scanned j hj
        · exact hscanned.symm

theorem LoopCourse.Follows.count_le (h : c.Follows runBody names l)
    (h' : c'.Follows runBody names l) : c.count ≤ c'.count := by
  by_contra more
  obtain ⟨goes, trips⟩ := h.goes c'.count (Nat.lt_of_not_le more)
  rcases h'.stops with ⟨m, hm, bound⟩ | ⟨-, fails⟩
  · have := trips m hm
    omega
  · rw [(h.agree h' (Nat.le_of_not_le more) (Nat.le_refl _)).1, fails] at goes
    cases goes

/-- What a loop is given determines its iterations. -/
theorem LoopCourse.Follows.unique (h : c.Follows runBody names l)
    (h' : c'.Follows runBody names l) :
    c.count = c'.count ∧ c.carried c.count = c'.carried c'.count ∧
      ∀ i < c.count, c.scanned i = c'.scanned i := by
  have count : c.count = c'.count := Nat.le_antisymm (h.count_le h') (h'.count_le h)
  obtain ⟨-, carried, scanned⟩ := h.agree h' (Nat.le_refl _) (Nat.le_of_eq count)
  exact ⟨count, count ▸ carried, scanned⟩

end

end

theorem Tensor.of_zeros? {type : ElementType} {shape : List Nat} {t : Tensor}
    (h : zeros? type shape = some t) : t.shape = shape ∧ t.elementType = type := by
  obtain ⟨e, he, h⟩ := Option.bind_eq_some_iff.1 h
  unfold ofElements? at h
  split at h
  · cases h
    refine ⟨rfl, ?_⟩
    cases type <;> cases he <;> rfl
  · cases h

/-- The values at a position that all rows have. -/
theorem filterMap_getElem?_eq {α : Type} {rows : List (List α)} {j : Nat}
    (enough : ∀ row ∈ rows, j < row.length) :
    rows.map (·[j]?) = (rows.filterMap (·[j]?)).map some := by
  induction rows with
  | nil => rfl
  | cons row rest ih =>
      have first := List.getElem?_eq_getElem (enough row List.mem_cons_self)
      rw [List.map_cons, List.filterMap_cons_some (f := (·[j]?)) first, List.map_cons, first,
        ih fun row hrow => enough row (List.mem_cons_of_mem _ hrow)]

theorem LoopState.collects_of_stackAt {final : LoopState} {c : LoopCourse} {declared : ValueInfo}
    {j : Nat} {u : Tensor} (storable : final.Storable)
    (rows : final.rows.reverse = (List.range c.count).map c.scanned)
    (enough : ∀ i < c.count, j < (c.scanned i).length) (h : final.stackAt declared j = .ok u) :
    c.Collects declared j u := by
  have lengths : final.rows.length = c.count := by
    simpa using congrArg List.length rows
  unfold stackAt at h
  split at h
  · rename_i none
    rw [none] at lengths
    unfold emptyStack at h
    dsimp only at h
    split at h
    · rename_i type sizes htype hsizes
      have zeros := orFault_eq_ok_iff.1 h
      obtain ⟨shape, rfl⟩ := Tensor.of_zeros? zeros
      refine ⟨[], sizes, by simp [← lengths], ⟨Tensor.computed_of_zeros? zeros, shape, ?_⟩,
        fun _ => ⟨hsizes, htype⟩⟩
      intro i t ht
      cases ht
    · cases h
  · rename_i some
    have counted : ∀ t ∈ final.rows.reverse.filterMap (·[j]?), t.Counted := by
      intro t ht
      obtain ⟨row, hrow, hget⟩ := List.mem_filterMap.1 ht
      exact (storable.rows row (List.mem_reverse.1 hrow) t (List.mem_of_getElem? hget)).counted
    obtain ⟨common, stack⟩ := stackOf_of_stackTensors counted h
    refine ⟨_, common, ?_, stack, fun zero => ?_⟩
    · rw [← filterMap_getElem?_eq, rows, List.map_map]
      · rfl
      · intro row hrow
        rw [rows] at hrow
        obtain ⟨i, hi, rfl⟩ := List.mem_map.1 hrow
        exact enough i (List.mem_range.1 hi)
    · exact absurd (List.eq_nil_of_length_eq_zero (lengths.trans zero)) some

theorem Graph.length_of_runIn {version : Option Int64} {chance : Generator} {g : Graph}
    {inputs outer : Scope Tensor} {outs : List Tensor}
    (h : g.runIn version chance inputs outer = .ok outs) : outs.length = g.outputs.length := by
  obtain ⟨F, -, houts⟩ := runIn_eq_ok h
  exact (outputValues_eq_ok_iff.1 houts).length_eq.symm

/-- What a loop computes: the course of its iterations, the values that the last one passes on, and
the stacks. -/
theorem runLoop_computes {version : Option Int64} {chance : Generator} {n : Node} {body : Graph}
    {scope : Scope Tensor} {inputs : Inputs} {outs : List Tensor}
    (hbody : body.Everywhere Graph.FullyStorable) (hscope : scope.Storable)
    (hinputs : inputs.Storable)
    (h : runLoop version n body (fun given => body.runIn version chance given scope) inputs =
      .ok outs) :
    ∃ (l : LoopInputs) (c : LoopCourse) (scans : List Tensor), l.ReadFrom inputs ∧
      body.inputs.length = l.carried.length + 2 ∧
      body.outputs.length = l.carried.length + 1 + scans.length ∧
      c.Follows (fun given => body.runIn version chance given scope)
        (body.inputs.map ValueInfo.name) l ∧
      outs = c.carried c.count ++ scans ∧
      ∀ j u, scans[j]? = some u → ∃ declared,
        body.outputs[l.carried.length + 1 + j]? = some declared ∧ c.Collects declared j u := by
  unfold runLoop at h
  dsimp only at h
  obtain ⟨l, hl, h⟩ := bind_eq_ok_iff.1 h
  split at h
  · rename_i fits
    obtain ⟨steps, -, h⟩ := bind_eq_ok_iff.1 h
    obtain ⟨final, hfinal, h⟩ := bind_eq_ok_iff.1 h
    split at h
    · cases h
    · rename_i ended
      have given := LoopInputs.readFrom_of_ofInputs (mapError_eq_ok_iff.1 hl)
      have houts := mapError_eq_ok_iff.1 h
      obtain ⟨hinputs', houtputs⟩ := Bool.and_eq_true_iff.1 fits
      have returns : ∀ given outs, body.runIn version chance given scope = .ok outs →
          outs.length = body.outputs.length := fun _ _ => Graph.length_of_runIn
      obtain ⟨c, follows, carried, carried', rows⟩ :=
        LoopState.exists_course given (of_decide_eq_true houtputs) returns hfinal ended
      obtain ⟨scans, rfl, length, each⟩ := LoopState.outputs_eq_ok houts
      have storable : final.Storable := by
        refine LoopState.Storable.ensures_iterate (fun s hs => ?_) _ _ _ ?_ _ hfinal
        · exact Graph.ensures_runIn hbody (hs.bodyInputs _) hscope
        · have carried := LoopInputs.ensures_ofInputs hinputs l (mapError_eq_ok_iff.1 hl)
          refine ⟨carried, fun row hrow => ?_⟩
          cases hrow
      have scanned := follows.length_scanned returns
      refine ⟨l, c, scans, given, by simpa using hinputs', ?_, follows, by rw [carried], ?_⟩
      · have := of_decide_eq_true houtputs
        rw [carried'] at length
        omega
      · intro j u hj
        obtain ⟨declared, hdeclared, hu⟩ := each j u hj
        rw [carried'] at hdeclared length
        refine ⟨declared, hdeclared, final.collects_of_stackAt storable rows (fun i hi => ?_) hu⟩
        have := scanned i hi
        have := (List.getElem?_eq_some_iff.1 hj).1
        omega
  · cases h

/-- A body that adds the number of the iteration to what it carries, and shows what it was given. -/
def addsNumber : Graph where
  nodes := [{ opType := "Add", inputs := ["sum", "i"], outputs := ["next"] }]
  inputs := [{ name := "i" }, { name := "go" }, { name := "sum" }]
  outputs := [{ name := "go" }, { name := "next" }, { name := "sum" }]

theorem fullyStorable_addsNumber : addsNumber.Everywhere Graph.FullyStorable := by
  refine .intro ⟨⟨Wire.unknown_nil _, ?_, ?_, ?_, ?_⟩, ?_⟩ ?_
  · simp [addsNumber]
  · simp [addsNumber, ValueInfo.Storable]
  · simp [addsNumber, ValueInfo.Storable]
  · simp [addsNumber]
  · intro n hn
    cases List.mem_singleton.1 hn
    exact ⟨by decide, Wire.unknown_nil _, by simp⟩
  · intro n hn
    cases List.mem_singleton.1 hn
    simp [Node.subgraphs]

/-- Three iterations from five on, numbered from zero. -/
theorem runLoop_addsNumber :
    ∃ (inputs : Inputs) (l : LoopInputs) (c : LoopCourse),
      inputs = [some (.scalar (3 : Int64)), none, some (.scalar (5 : Int64))] ∧
      l.ReadFrom inputs ∧
      c.Follows (fun given => addsNumber.runIn none ⟨0⟩ given []) ["i", "go", "sum"] l ∧
      c.count = 3 ∧ c.carried 3 = [.scalar (8 : Int64)] ∧
      c.Collects { name := "sum" } 0 (.vector #[(5 : Int64), 5, 6]) := by
  have run : runLoop none { opType := "Loop" } addsNumber
      (fun given => addsNumber.runIn none ⟨0⟩ given [])
      [some (.scalar (3 : Int64)), none, some (.scalar (5 : Int64))] =
        .ok [.scalar (8 : Int64), .vector #[(5 : Int64), 5, 6]] := by
    cbv
  have storable :
      Inputs.Storable [some (.scalar (3 : Int64)), none, some (.scalar (5 : Int64))] := by
    intro t ht
    have : t = .scalar (3 : Int64) ∨ t = .scalar (5 : Int64) := by simpa using ht
    rcases this with rfl | rfl
    · exact (Tensor.computed_scalar _).storable
    · exact (Tensor.computed_scalar _).storable
  obtain ⟨l, c, scans, read, inputs, outputs, follows, outs, collects⟩ :=
    runLoop_computes fullyStorable_addsNumber .nil storable run
  have trips : l.trips = some 3 := by
    have := read.trips
    generalize l.trips = trips at this
    cases this with
    | some h =>
        obtain ⟨v, hv, rfl⟩ := h
        cases hv
        rfl
  have condition : l.condition = none := by
    have := read.condition
    generalize l.condition = condition at this
    cases this with
    | none => rfl
  have count : c.count = 3 := by
    refine Nat.le_antisymm (Nat.le_of_not_lt fun more => ?_) ?_
    · exact absurd ((follows.goes 3 more).2 3 trips) (by decide)
    · rcases follows.stops with ⟨m, hm, bound⟩ | ⟨given, -⟩
      · rw [trips] at hm
        cases hm
        omega
      · rw [condition] at given
        cases given
  rw [count] at outs
  have length : (c.carried 3).length = 1 := by
    have := congrArg List.length outs
    simp only [List.length_append, List.length_cons, List.length_nil] at this
    simp only [addsNumber, List.length_cons, List.length_nil] at inputs outputs
    omega
  have parts :
      [Tensor.scalar (8 : Int64)] ++ [.vector #[(5 : Int64), 5, 6]] = c.carried 3 ++ scans := outs
  obtain ⟨carried, rfl⟩ := List.append_inj parts length.symm
  obtain ⟨declared, hdeclared, collected⟩ := collects 0 _ rfl
  have size : l.carried.length = 1 := by simpa [addsNumber] using inputs.symm
  rw [size] at hdeclared
  cases hdeclared
  exact ⟨_, l, c, rfl, read, follows, count, carried.symm, collected⟩

end TensorGraph
