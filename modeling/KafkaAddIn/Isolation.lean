import KafkaAddIn.MessageKey

namespace KafkaAddIn

open Foundation

variable {platform : Platform} {this : CKafka} {A : ObjId} {c : HostCall} {s s' t t' : Process}
  {o o' : Outcome} {history : History}

def Op.consumes (op : Op) : Bool := (op.calls .eConsume).isSome

def Op.readsProperty : Op → Bool
  | .request (.getPropVal lPropNum _) => (Props.ofLong lPropNum).isSome
  | _ => false

def lastConsumer (history : History) : Option ObjId :=
  ((history.filter fun e => e.call.op.consumes).map fun e => e.call.obj).getLast?

/-- Nobody else has consumed since `A` did, and nobody at all before. -/
def OwnPair (A : ObjId) (history : History) : Prop :=
  lastConsumer history = none ∨ lastConsumer history = some A

instance : Decidable (OwnPair A history) := inferInstanceAs (Decidable (_ ∨ _))

theorem lastConsumer_snoc (e : Entry Process HostCall Outcome) :
    lastConsumer (history ++ [e]) =
      if e.call.op.consumes then some e.call.obj else lastConsumer history := by
  unfold lastConsumer
  split
  next hc => simp [hc]
  next hc => simp [hc]

/-- The process that has only had the calls on `A` compares with the one that has had all. -/
def SeenFrom (A : ObjId) (history : History) (s s' : Process) : Prop :=
  s.dead = false → s'.dead = false ∧ s'.objects A = s.objects A ∧
    (OwnPair A history → s'.gMessage = s.gMessage ∧ s'.gKey = s.gKey)

theorem getPropVal_isOk {a : Answers} {lPropNum : Int} {pvar : TVariant} {w w' : World}
    {r : Except Exit (Bool × TVariant)} (h : Ends (getPropVal this a lPropNum pvar) w r w') :
    r.isOk = true ↔ Props.ofLong lPropNum = none ∨ this.mIMemory = true ∧ a.alloc = true := by
  rcases ends_getPropVal h with ⟨hnone, rfl, _⟩ | ⟨prop, hsome, hstr⟩
  · exact iff_of_true rfl (Or.inl hnone)
  · rw [stringToTVariant_isOk hstr, hsome]
    exact (or_iff_right nofun).symm

theorem isOk_map {ε α β : Type} (f : α → β) (r : Except ε α) : (r.map f).isOk = r.isOk := by
  cases r <;> rfl

theorem request_isOk {a : Answers} {request : Request} {r r' : Except Exit Ret} {w w' : World}
    (h : Ends (runRequest platform this a request) s.world r w)
    (h' : Ends (runRequest platform this a request) s'.world r' w') : r.isOk = r'.isOk := by
  by_cases haside : request.aside = true
  · rw [(uniform_runRequest haside).result h h']
  · cases request with
    | getPropVal num pvar =>
      obtain ⟨r₀, hget, rfl⟩ := ends_bind_pure.mp h
      obtain ⟨r₁, hget', rfl⟩ := ends_bind_pure.mp h'
      rw [isOk_map, isOk_map, Bool.eq_iff_iff, getPropVal_isOk hget, getPropVal_isOk hget']
    | callAsFunc num pvar ps size =>
      obtain ⟨r₀, hcall, rfl⟩ := ends_bind_pure.mp h
      obtain ⟨r₁, hcall', rfl⟩ := ends_bind_pure.mp h'
      rw [isOk_map, isOk_map, Bool.eq_iff_iff, (ends_callAsFunc rfl hcall).isOk,
        (ends_callAsFunc rfl hcall').isOk]
    | _ => exact absurd rfl haside

theorem getPropVal_result {a : Answers} {lPropNum : Int} {pvar : TVariant}
    {r r' : Except Exit (Bool × TVariant)} {u w u' w' : World} (hm : u.gMessage = w.gMessage)
    (hk : u.gKey = w.gKey) (h : Ends (getPropVal this a lPropNum pvar) w r w')
    (h' : Ends (getPropVal this a lPropNum pvar) u r' u') : r' = r := by
  have hval : ∀ prop, u.propValue prop = w.propValue prop := by
    intro prop
    cases prop with
    | eMessage => exact hm
    | eKey => exact hk
  rcases ends_getPropVal h with ⟨hnone, hr, _⟩ | ⟨prop, hsome, hstr⟩
  · rcases ends_getPropVal h' with ⟨_, hr', _⟩ | ⟨prop, hsome, _⟩
    · rw [hr, hr']
    · simp [hnone] at hsome
  · rcases ends_getPropVal h' with ⟨hnone, _, _⟩ | ⟨prop', hsome', hstr'⟩
    · simp [hsome] at hnone
    · rw [hsome] at hsome'
      cases hsome'
      rw [hval prop] at hstr'
      exact (uniform_stringToTVariant _ _).result hstr' hstr

theorem stepProcess_isSome {A : ObjId} (hc : c.obj = A) (hdead : s'.dead = false)
    (hobj : s'.objects A = s.objects A) (h : stepProcess platform c s = some (o, t)) :
    ∃ o' t', stepProcess platform c s' = some (o', t') := by
  obtain ⟨hlive, hcase⟩ := stepProcess_cases h
  unfold stepProcess at h ⊢
  rw [hc] at h ⊢
  rw [hdead, hobj]
  rw [hlive] at h
  cases hop : c.op with
  | lifetime l =>
    simp only [hop, Bool.false_eq_true, if_false, Option.map_eq_some_iff] at h ⊢
    obtain ⟨x, hx, _⟩ := h
    exact ⟨_, _, x, hx, rfl⟩
  | request request =>
    simp only [hop, Bool.false_eq_true, if_false, Option.map_eq_some_iff] at h ⊢
    obtain ⟨x, hx, _⟩ := h
    exact ⟨_, _, x, hx, rfl⟩

theorem ownPair_of_snoc {e : Entry Process HostCall Outcome}
    (hc : e.call.op.calls .eConsume = none) (h : OwnPair A (history ++ [e])) :
    OwnPair A history := by
  have hno : e.call.op.consumes = false := by simp [Op.consumes, hc]
  unfold OwnPair at h ⊢
  rw [lastConsumer_snoc, hno] at h
  exact h

theorem seenFrom_pair (hs : stepProcess platform c s = some (o, t))
    (hs' : stepProcess platform c s' = some (o', t'))
    (hpair : OwnPair A history → s'.gMessage = s.gMessage ∧ s'.gKey = s.gKey)
    (hown : OwnPair A (history ++ [⟨s, c, o, t⟩])) :
    t'.gMessage = t.gMessage ∧ t'.gKey = t.gKey := by
  cases hc : c.op.calls .eConsume with
  | none =>
    obtain ⟨hm, hk⟩ := frame_step hs hc
    obtain ⟨hm', hk'⟩ := frame_step hs' hc
    obtain ⟨hm0, hk0⟩ := hpair (ownPair_of_snoc hc hown)
    exact ⟨(hm'.trans hm0).trans hm.symm, (hk'.trans hk0).trans hk.symm⟩
  | some ps =>
    -- What `consume` leaves does not depend on what was there.
    obtain ⟨r, hleaves, _⟩ := consume_step_leaves hs hc
    obtain ⟨r', hleaves', _⟩ := consume_step_leaves hs' hc
    exact (hleaves'.unique hleaves).2

theorem seenFrom_keep (hc : c.obj = A) (hR : SeenFrom A history s s')
    (hs : stepProcess platform c s = some (o, t))
    (hs' : stepProcess platform c s' = some (o', t')) :
    SeenFrom A (history ++ [⟨s, c, o, t⟩]) t t' := by
  obtain ⟨hlive, hcase⟩ := stepProcess_cases hs
  obtain ⟨hlive', hcase'⟩ := stepProcess_cases hs'
  obtain ⟨_, hobj, hpair⟩ := hR hlive
  intro hafter
  have hpair' := seenFrom_pair hs hs' hpair
  rcases hcase with ⟨l, ok, obj, hop, hupd, rfl, rfl⟩ | ⟨request, this, r, w, hop, hthis, hrun,
    rfl, rfl⟩
  · rcases hcase' with ⟨l', ok', obj', hop', hupd', rfl, rfl⟩ | ⟨_, _, _, _, hop', _⟩
    · rw [hop] at hop'
      cases hop'
      rw [hc, hobj, ← hc, hupd] at hupd'
      cases hupd'
      refine ⟨hlive', ?_, hpair'⟩
      simp [hc]
    · rw [hop] at hop'
      cases hop'
  · rcases hcase' with ⟨_, _, _, hop', _⟩ | ⟨request', this', r', w', hop', hthis', hrun', rfl,
      rfl⟩
    · rw [hop] at hop'
      cases hop'
    · rw [hop] at hop'
      cases hop'
      rw [hc, hobj, ← hc, hthis] at hthis'
      cases hthis'
      refine ⟨?_, hobj, hpair'⟩
      change (!r'.isOk) = false
      rw [← request_isOk hrun hrun']
      exact hafter

theorem seenFrom_drop (hc : c.obj ≠ A) (hR : SeenFrom A history s s')
    (hs : stepProcess platform c s = some (o, t)) :
    SeenFrom A (history ++ [⟨s, c, o, t⟩]) t s' := by
  obtain ⟨hlive, hcase⟩ := stepProcess_cases hs
  obtain ⟨hlive', hobj, hpair⟩ := hR hlive
  intro _
  have hsame : t.objects A = s.objects A := by
    rcases hcase with ⟨l, ok, obj, _, _, _, rfl⟩ | ⟨request, this, r, w, _, _, _, _, rfl⟩
    · exact Function.update_of_ne hc.symm _ _
    · rfl
  refine ⟨hlive', hobj.trans hsame.symm, ?_⟩
  intro hown
  cases hcons : c.op.calls .eConsume with
  | none =>
    obtain ⟨hm, hk⟩ := frame_step hs hcons
    obtain ⟨hm0, hk0⟩ := hpair (ownPair_of_snoc hcons hown)
    exact ⟨hm0.trans hm.symm, hk0.trans hk.symm⟩
  | some ps =>
    have hlast : lastConsumer (history ++ [⟨s, c, o, t⟩]) = some c.obj := by
      rw [lastConsumer_snoc, if_pos (by simp [Op.consumes, hcons])]
    rcases hown with hnone | hsome
    · rw [hlast] at hnone
      cases hnone
    · rw [hlast] at hsome
      exact absurd (Option.some.inj hsome) hc

def SameRead (e e' : Entry Process HostCall Outcome) : Prop :=
  e.call.op.readsProperty = true → e'.outcome.result = e.outcome.result

theorem sameRead_keep (hc : c.obj = A) (hR : SeenFrom A history s s')
    (hown : c.op.readsProperty = true → OwnPair A history)
    (hs : stepProcess platform c s = some (o, t))
    (hs' : stepProcess platform c s' = some (o', t')) :
    SameRead ⟨s, c, o, t⟩ ⟨s', c, o', t'⟩ := by
  intro hread
  obtain ⟨hlive, hcase⟩ := stepProcess_cases hs
  obtain ⟨_, hcase'⟩ := stepProcess_cases hs'
  obtain ⟨_, hobj, hpair⟩ := hR hlive
  obtain ⟨hm, hk⟩ := hpair (hown hread)
  rcases hcase with ⟨l, _, _, hop, _⟩ | ⟨request, this, r, w, hop, hthis, hrun, rfl, _⟩
  · change c.op.readsProperty = true at hread
    rw [hop] at hread
    cases hread
  · rcases hcase' with ⟨_, _, _, hop', _⟩ | ⟨request', this', r', w', hop', hthis', hrun', rfl, _⟩
    · rw [hop] at hop'
      cases hop'
    · rw [hop] at hop'
      cases hop'
      rw [hc, hobj, ← hc, hthis] at hthis'
      cases hthis'
      change c.op.readsProperty = true at hread
      rw [hop] at hread
      cases request with
      | getPropVal num pvar =>
        obtain ⟨r₀, hget, rfl⟩ := ends_bind_pure.mp hrun
        obtain ⟨r₁, hget', rfl⟩ := ends_bind_pure.mp hrun'
        have hres := getPropVal_result (u := s'.world) (w := s.world) hm hk hget hget'
        cases hres
        rfl
      | _ => cases hread

/-- Taking every call on the other objects out of the run changes nothing that is read
on `A`. -/
def Isolated (platform : Platform) (A : ObjId) (history : History) : Prop :=
  ∃ history' s', ProcessRun platform history' s' ∧
    List.Forall₂ (fun e e' => e'.call = e.call ∧ SameRead e e')
      (history.filter fun e => e.call.obj = A) history'

/-- Whenever Message or Key is read on `A`, the latest `Consume` of the process was one on
`A`, or there has been none. -/
def ReadsOwnPair (A : ObjId) (history : History) : Prop :=
  Throughout (fun before e => e.call.obj = A → e.call.op.readsProperty = true → OwnPair A before)
    history

/-- The two globals belong to the whole process: an object is isolated in the runs in
which it reads them before any other object has consumed. -/
theorem isolated_of_readsOwnPair (h : ProcessRun platform history s)
    (hread : ReadsOwnPair A history) : Isolated platform A history := by
  have hstart : SeenFrom A [] {} {} := fun _ => ⟨rfl, rfl, fun _ => ⟨rfl, rfl⟩⟩
  obtain ⟨history', s', hrun, _, hmatch⟩ := Run.purge (fun c => decide (c.obj = A)) (SeenFrom A)
    SameRead hstart (by
      intro history s s' c o t _ hR hkeep hs hown
      have hc : c.obj = A := of_decide_eq_true hkeep
      obtain ⟨hlive, _⟩ := stepProcess_cases hs
      obtain ⟨hdead, hobj, _⟩ := hR hlive
      obtain ⟨o', t', hs'⟩ := stepProcess_isSome hc hdead hobj hs
      exact ⟨o', t', hs', seenFrom_keep hc hR hs hs', sameRead_keep hc hR (hown hc) hs hs'⟩)
    (by
      intro history s s' c o t _ hR hdrop hs _
      exact seenFrom_drop (of_decide_eq_false hdrop) hR hs)
    h hread
  exact ⟨history', s', hrun, hmatch⟩

def readCall (obj : ObjId) (lPropNum : Int) : HostCall :=
  ⟨obj, .request (.getPropVal lPropNum {}), {}⟩

/-- Two objects that consume one after the other; object 0 reads its Message before the
second call and after it. -/
def twoObjects (early late : List HostCall) : List HostCall :=
  newObject 0 ++ newObject 1 ++ [consumeCall 0 hiAnswers] ++ early ++ [consumeCall 1 {}] ++ late

theorem isolated_readAtOnce :
    ReadsOwnPair 0 (execCalls (twoObjects [readCall 0 0] [])).1 ∧
      Isolated .other 0 (execCalls (twoObjects [readCall 0 0] [])).1 := by
  have hread : ReadsOwnPair 0 (execCalls (twoObjects [readCall 0 0] [])).1 :=
    throughout_of_take (by decide +kernel)
  exact ⟨hread, isolated_of_readsOwnPair (run_execFrom Run.nil _) hread⟩

/-- The second object finds no record, and the first one has lost its own. -/
theorem readLate_not_isolated :
    ProcessRun .other (execCalls (twoObjects [] [readCall 0 0])).1
        (execCalls (twoObjects [] [readCall 0 0])).2 ∧
      ¬ Isolated .other 0 (execCalls (twoObjects [] [readCall 0 0])).1 := by
  refine ⟨run_execFrom Run.nil _, ?_⟩
  intro h
  obtain ⟨history', s', hrun, hmatch⟩ := h
  have hall : (execCalls (twoObjects [] [readCall 0 0])).1.map Entry.call =
      twoObjects [] [readCall 0 0] := map_call_execFrom (by decide +kernel)
  have hcalls : history'.map Entry.call =
      newObject 0 ++ [consumeCall 0 hiAnswers, readCall 0 0] := by
    have hfilter := List.filter_map (f := Entry.call) (p := fun c : HostCall => decide (c.obj = 0))
      (l := (execCalls (twoObjects [] [readCall 0 0])).1)
    rw [map_call_eq hmatch]
    refine hfilter.symm.trans ?_
    rw [hall]
    rfl
  have hexec := hrun.execFrom_calls
  rw [hcalls] at hexec
  have hhistory : (execCalls (newObject 0 ++ [consumeCall 0 hiAnswers, readCall 0 0])).1 =
      history' := congrArg Prod.fst hexec
  rw [← hhistory] at hmatch
  have hlast := (List.forall₂_iff_get.mp hmatch).2 3 (by decide +kernel) (by decide +kernel)
  have hsame := hlast.2 (by decide +kernel)
  exact absurd hsame (by decide +kernel)

end KafkaAddIn
