import LibCC.JsmnDoc

/-! The calls read as a pushdown machine: the containers that are open around
the place of the next value, and the container that the calls are in. -/

namespace LibCC

/-- A container that waits for the value of one of its members. -/
inductive JsmnHole
  | object (done : List (JsmnText × JsmnDoc)) (key : JsmnText)
  | array (done : List JsmnDoc)

/-- The innermost container; `keyed` after a key whose value is to come. -/
inductive JsmnOpen
  | object (done : List (JsmnText × JsmnDoc))
  | keyed (done : List (JsmnText × JsmnDoc)) (key : JsmnText)
  | array (done : List JsmnDoc)

/-- What a sequence of calls has written. `holes` starts with the innermost. -/
inductive JsmnPending
  | start
  | within (top : JsmnOpen) (holes : List JsmnHole)
  | whole (doc : JsmnDoc)

def JsmnHole.fill : JsmnHole → JsmnDoc → JsmnOpen
  | .object done key, doc => .object (done ++ [(key, doc)])
  | .array done, doc => .array (done ++ [doc])

def JsmnOpen.hole? : JsmnOpen → Option JsmnHole
  | .object _ => none
  | .keyed done key => some (.object done key)
  | .array done => some (.array done)

namespace JsmnPending

/-- The holes around the next value, where the next call may write one. -/
def holes? : JsmnPending → Option (List JsmnHole)
  | start => some []
  | within top holes => top.hole?.map (· :: holes)
  | whole _ => none

def fill : List JsmnHole → JsmnDoc → JsmnPending
  | [], doc => whole doc
  | hole :: holes, doc => within (hole.fill doc) holes

def enter (top : JsmnOpen) (holes : List JsmnHole) : Option JsmnPending :=
  if holes.length < 32 then some (within top holes) else none

def step (p : JsmnPending) : JsmnCall → Option JsmnPending
  | .scalar s => p.holes?.map (fill · (.scalar s))
  | .beginObject => p.holes?.bind (enter (.object []))
  | .beginArray => p.holes?.bind (enter (.array []))
  | .end_ =>
    match p with
    | within (.object members) holes => some (fill holes (.object members))
    | within (.array elements) holes => some (fill holes (.array elements))
    | _ => none
  | .key key =>
    match p with
    | within (.object members) holes => some (within (.keyed members key) holes)
    | _ => none

def run : List JsmnCall → JsmnPending → Option JsmnPending
  | [], p => some p
  | call :: calls, p => (p.step call).bind (run calls)

theorem run_append (calls later : List JsmnCall) (p : JsmnPending) :
    run (calls ++ later) p = (run calls p).bind (run later) := by
  induction calls generalizing p with
  | nil => rfl
  | cons call calls ih =>
    rw [List.cons_append, run, run]
    cases p.step call with
    | none => rfl
    | some p' => exact ih p'

end JsmnPending

section Complete

open JsmnPending

variable {p : JsmnPending} {holes : List JsmnHole}

theorem JsmnPending.enter_eq {top : JsmnOpen} (h : holes.length < 32) :
    enter top holes = some (within top holes) := if_pos h

mutual

/-- The calls of a tree fill the place of the next value with that tree. -/
theorem JsmnDoc.run_calls : ∀ (doc : JsmnDoc) (p : JsmnPending) (holes : List JsmnHole),
    p.holes? = some holes → holes.length + doc.depth ≤ 32 → run doc.calls p = some (fill holes doc)
  | .scalar s, p, holes, hp, _ => by
    rw [JsmnDoc.calls, run, step, hp]
    rfl
  | .object members, p, holes, hp, hd => by
    rw [JsmnDoc.depth] at hd
    have henter : step p .beginObject = some (within (.object []) holes) := by
      rw [step, hp]
      exact enter_eq (by omega)
    rw [JsmnDoc.calls, run, henter, Option.bind_some, run_append,
      jsmnMembers_run members [] holes (by omega), List.nil_append]
    rfl
  | .array elements, p, holes, hp, hd => by
    rw [JsmnDoc.depth] at hd
    have henter : step p .beginArray = some (within (.array []) holes) := by
      rw [step, hp]
      exact enter_eq (by omega)
    rw [JsmnDoc.calls, run, henter, Option.bind_some, run_append,
      jsmnElements_run elements [] holes (by omega), List.nil_append]
    rfl

theorem jsmnMembers_run : ∀ (members done : List (JsmnText × JsmnDoc)) (holes : List JsmnHole),
    holes.length + 1 + jsmnMembersDepth members ≤ 32 →
    run (jsmnMembersCalls members) (within (.object done) holes) =
      some (within (.object (done ++ members)) holes)
  | [], done, holes, _ => by
    rw [jsmnMembersCalls, List.append_nil, run]
  | (key, doc) :: members, done, holes, hd => by
    rw [jsmnMembersDepth] at hd
    have hdoc := JsmnDoc.run_calls doc (within (.keyed done key) holes) (.object done key :: holes)
      rfl (by rw [List.length_cons]; omega)
    rw [jsmnMembersCalls, run, step, Option.bind_some, run_append, hdoc]
    refine (jsmnMembers_run members (done ++ [(key, doc)]) holes (by omega)).trans ?_
    rw [List.append_assoc, List.singleton_append]

theorem jsmnElements_run : ∀ (elements done : List JsmnDoc) (holes : List JsmnHole),
    holes.length + 1 + jsmnElementsDepth elements ≤ 32 →
    run (jsmnElementsCalls elements) (within (.array done) holes) =
      some (within (.array (done ++ elements)) holes)
  | [], done, holes, _ => by
    rw [jsmnElementsCalls, List.append_nil, run]
  | doc :: elements, done, holes, hd => by
    rw [jsmnElementsDepth] at hd
    have hdoc := JsmnDoc.run_calls doc (within (.array done) holes) (.array done :: holes) rfl
      (by rw [List.length_cons]; omega)
    rw [jsmnElementsCalls, run_append, hdoc]
    refine (jsmnElements_run elements (done ++ [doc]) holes (by omega)).trans ?_
    rw [List.append_assoc, List.singleton_append]

end

end Complete

section Sound

variable {p p' : JsmnPending} {call : JsmnCall} {holes : List JsmnHole}

theorem jsmnMembersCalls_append (members later : List (JsmnText × JsmnDoc)) :
    jsmnMembersCalls (members ++ later) = jsmnMembersCalls members ++ jsmnMembersCalls later := by
  induction members with
  | nil => rfl
  | cons member members ih => simp [jsmnMembersCalls, ih]

theorem jsmnElementsCalls_append (elements later : List JsmnDoc) :
    jsmnElementsCalls (elements ++ later) =
      jsmnElementsCalls elements ++ jsmnElementsCalls later := by
  induction elements with
  | nil => rfl
  | cons doc elements ih => simp [jsmnElementsCalls, ih]

theorem jsmnMembersDepth_append (members later : List (JsmnText × JsmnDoc)) :
    jsmnMembersDepth (members ++ later) =
      max (jsmnMembersDepth members) (jsmnMembersDepth later) := by
  induction members with
  | nil => simp [jsmnMembersDepth]
  | cons member members ih => simp [jsmnMembersDepth, ih, max_assoc]

theorem jsmnElementsDepth_append (elements later : List JsmnDoc) :
    jsmnElementsDepth (elements ++ later) =
      max (jsmnElementsDepth elements) (jsmnElementsDepth later) := by
  induction elements with
  | nil => simp [jsmnElementsDepth]
  | cons doc elements ih => simp [jsmnElementsDepth, ih, max_assoc]

def JsmnHole.calls : JsmnHole → List JsmnCall
  | .object done key => .beginObject :: (jsmnMembersCalls done ++ [.key key])
  | .array done => .beginArray :: jsmnElementsCalls done

def JsmnHole.depth : JsmnHole → Nat
  | .object done _ => jsmnMembersDepth done
  | .array done => jsmnElementsDepth done

def JsmnOpen.calls : JsmnOpen → List JsmnCall
  | .object done => .beginObject :: jsmnMembersCalls done
  | .keyed done key => .beginObject :: (jsmnMembersCalls done ++ [.key key])
  | .array done => .beginArray :: jsmnElementsCalls done

def JsmnOpen.depth : JsmnOpen → Nat
  | .object done => jsmnMembersDepth done
  | .keyed done _ => jsmnMembersDepth done
  | .array done => jsmnElementsDepth done

def jsmnHolesCalls : List JsmnHole → List JsmnCall
  | [] => []
  | hole :: holes => jsmnHolesCalls holes ++ hole.calls

/-- No more than 32 containers are open at once in what was written. -/
def jsmnHolesFit : List JsmnHole → Prop
  | [] => True
  | hole :: holes => holes.length + 1 + hole.depth ≤ 32 ∧ jsmnHolesFit holes

/-- `calls` are those that led here, and what they wrote is not too deep. -/
def JsmnPending.Wrote : JsmnPending → List JsmnCall → Prop
  | .start, calls => calls = []
  | .within top holes, calls => calls = jsmnHolesCalls holes ++ top.calls ∧
    holes.length + 1 + top.depth ≤ 32 ∧ jsmnHolesFit holes
  | .whole doc, calls => calls = doc.calls ∧ doc.depth ≤ 32

theorem JsmnPending.Wrote.around {calls : List JsmnCall} (h : p.Wrote calls)
    (hp : p.holes? = some holes) : calls = jsmnHolesCalls holes ∧ jsmnHolesFit holes := by
  cases p with
  | start =>
    obtain rfl := Option.some.inj hp
    exact ⟨h, trivial⟩
  | within top holes' =>
    obtain ⟨rfl, hd, hf⟩ := h
    cases top with
    | object done => exact absurd hp (by simp [JsmnPending.holes?, JsmnOpen.hole?])
    | keyed done key =>
      obtain rfl := Option.some.inj hp
      exact ⟨rfl, hd, hf⟩
    | array done =>
      obtain rfl := Option.some.inj hp
      exact ⟨rfl, hd, hf⟩
  | whole doc => exact absurd hp (by simp [JsmnPending.holes?])

theorem JsmnPending.wrote_fill {calls : List JsmnCall} {doc : JsmnDoc}
    (hc : calls = jsmnHolesCalls holes ++ doc.calls) (hf : jsmnHolesFit holes)
    (hd : holes.length + doc.depth ≤ 32) : (fill holes doc).Wrote calls := by
  cases holes with
  | nil => exact ⟨hc, by simpa using hd⟩
  | cons hole holes =>
    rw [List.length_cons] at hd
    cases hole with
    | object done key =>
      refine ⟨?_, ?_, hf.2⟩
      · simp [hc, jsmnHolesCalls, JsmnHole.calls, JsmnHole.fill, JsmnOpen.calls,
          jsmnMembersCalls_append, jsmnMembersCalls]
      · have hh : holes.length + 1 + jsmnMembersDepth done ≤ 32 := hf.1
        simp only [JsmnHole.fill, JsmnOpen.depth, jsmnMembersDepth_append, jsmnMembersDepth]
        omega
    | array done =>
      refine ⟨?_, ?_, hf.2⟩
      · simp [hc, jsmnHolesCalls, JsmnHole.calls, JsmnHole.fill, JsmnOpen.calls,
          jsmnElementsCalls_append, jsmnElementsCalls]
      · have hh : holes.length + 1 + jsmnElementsDepth done ≤ 32 := hf.1
        simp only [JsmnHole.fill, JsmnOpen.depth, jsmnElementsDepth_append, jsmnElementsDepth]
        omega

theorem JsmnPending.wrote_enter {calls : List JsmnCall} {top : JsmnOpen}
    (h : p.Wrote calls) (hs : p.holes?.bind (enter top) = some p') (hd : top.depth = 0)
    (hc : top.calls = [call]) : p'.Wrote (calls ++ [call]) := by
  obtain ⟨holes, hp, he⟩ := Option.bind_eq_some_iff.mp hs
  obtain ⟨hcalls, hf⟩ := h.around hp
  unfold enter at he
  split_ifs at he with hlt
  obtain rfl := Option.some.inj he
  refine ⟨by rw [hcalls, hc], ?_, hf⟩
  omega

theorem JsmnPending.Wrote.step {calls : List JsmnCall} (h : p.Wrote calls)
    (hs : p.step call = some p') : p'.Wrote (calls ++ [call]) := by
  cases call with
  | scalar s =>
    obtain ⟨holes, hp, rfl⟩ := Option.map_eq_some_iff.mp hs
    obtain ⟨hcalls, hf⟩ := h.around hp
    refine wrote_fill (by rw [hcalls, JsmnDoc.calls]) hf ?_
    rw [JsmnDoc.depth]
    cases holes with
    | nil => simp
    | cons hole holes =>
      have hh := hf.1
      rw [List.length_cons]
      omega
  | beginObject => exact wrote_enter h hs rfl rfl
  | beginArray => exact wrote_enter h hs rfl rfl
  | end_ =>
    unfold JsmnPending.step at hs
    dsimp only at hs
    split at hs
    · obtain rfl := Option.some.inj hs
      obtain ⟨rfl, (hd : _ + 1 + jsmnMembersDepth _ ≤ 32), hf⟩ := h
      refine wrote_fill ?_ hf ?_
      · rw [JsmnDoc.calls, List.append_assoc]
        rfl
      · rw [JsmnDoc.depth]
        omega
    · obtain rfl := Option.some.inj hs
      obtain ⟨rfl, (hd : _ + 1 + jsmnElementsDepth _ ≤ 32), hf⟩ := h
      refine wrote_fill ?_ hf ?_
      · rw [JsmnDoc.calls, List.append_assoc]
        rfl
      · rw [JsmnDoc.depth]
        omega
    · exact absurd hs (by simp)
  | key key =>
    unfold JsmnPending.step at hs
    dsimp only at hs
    split at hs
    · obtain rfl := Option.some.inj hs
      obtain ⟨rfl, hd, hf⟩ := h
      refine ⟨?_, hd, hf⟩
      rw [List.append_assoc]
      rfl
    · exact absurd hs (by simp)

theorem JsmnPending.Wrote.run {calls later : List JsmnCall} (h : p.Wrote calls)
    (hr : run later p = some p') : p'.Wrote (calls ++ later) := by
  induction later generalizing p calls with
  | nil =>
    obtain rfl := Option.some.inj hr
    simpa using h
  | cons call later ih =>
    obtain ⟨p₁, hs, hr⟩ := Option.bind_eq_some_iff.mp hr
    have := ih (h.step hs) hr
    rwa [List.append_assoc] at this

/-- The calls that are accepted are those of one tree. -/
theorem JsmnPending.run_start_whole {calls : List JsmnCall} {doc : JsmnDoc}
    (h : run calls start = some (whole doc)) : calls = doc.calls ∧ doc.depth ≤ 32 := by
  have hstart : start.Wrote [] := rfl
  exact hstart.run h

end Sound

end LibCC
