import KafkaAddIn.ResultStrings

namespace KafkaAddIn

open Foundation

variable {platform : Platform} {this : CKafka} {a : Answers} {w w' : World}
  {paParams : Nat → TVariant} {c : HostCall} {s t : Process} {o : Outcome}

def Op.calls (m : Methods) : Op → Option (Nat → TVariant)
  | .request (.callAsFunc lMethodNum _ paParams _) =>
    if Methods.ofLong lMethodNum = some m then some paParams else none
  | _ => none

theorem Op.calls_cases {m : Methods} {op : Op} (h : op.calls m = some paParams) :
    ∃ lMethodNum pvar size, Methods.ofLong lMethodNum = some m ∧
      op = .request (.callAsFunc lMethodNum pvar paParams size) := by
  cases op with
  | lifetime l => cases h
  | request request =>
    cases request with
    | callAsFunc lMethodNum pvar ps size =>
      simp only [Op.calls] at h
      split at h
      next hm =>
        cases h
        exact ⟨lMethodNum, pvar, size, hm, rfl⟩
      next => cases h
    | _ => cases h

theorem Op.calls_callAsFunc {m : Methods} {lMethodNum size : Int} {pvar : TVariant} :
    (Op.request (.callAsFunc lMethodNum pvar paParams size)).calls m = none ↔
      Methods.ofLong lMethodNum ≠ some m := by
  simp [Op.calls]

theorem Op.calls_other {m m' : Methods} {op : Op} (h : op.calls m = some paParams)
    (hne : m ≠ m') : op.calls m' = none := by
  obtain ⟨lMethodNum, pvar, size, hm, rfl⟩ := Op.calls_cases h
  rw [Op.calls_callAsFunc, hm]
  exact fun he => hne (Option.some.inj he)

def Outcome.answers (o : Outcome) (b : Bool) : Prop :=
  ∃ val, o.result = .ok (.variant true val) ∧ val.vt = vtypeBool ∧ val.bVal = b

/-- The object of a call has what it takes to hand a string to the host. -/
def Hosted (c : HostCall) (s : Process) : Prop :=
  (∃ this, s.objects c.obj = some this ∧ this.mIMemory = true) ∧ c.answers.alloc = true

theorem method_step {m : Methods} (h : stepProcess platform c s = some (o, t))
    (hc : c.op.calls m = some paParams) :
    ∃ this lMethodNum pvar r w, s.objects c.obj = some this ∧
      Methods.ofLong lMethodNum = some m ∧
      CallExit this c.answers lMethodNum pvar paParams s.world r w ∧
      o = ⟨r.map fun p => .variant p.1 p.2, w.trace⟩ ∧ t = s.finish o.result w := by
  obtain ⟨lMethodNum, pvar, size, hm, hop⟩ := Op.calls_cases hc
  obtain ⟨_, ⟨l, _, _, hl, _⟩ | ⟨request, this, r, w, hreq, hthis, hrun, rfl, rfl⟩⟩ :=
    stepProcess_cases h
  · rw [hop] at hl
    cases hl
  · rw [hop] at hreq
    cases hreq
    refine ⟨this, lMethodNum, pvar, ?_⟩
    obtain ⟨r₀, hcall, rfl⟩ := ends_bind_pure.mp hrun
    exact ⟨r₀, w, hthis, hm, ends_callAsFunc rfl hcall, rfl, rfl⟩

theorem consume_step (h : stepProcess platform c s = some (o, t))
    (hc : c.op.calls .eConsume = some paParams) :
    ∃ r w, ConsumeExit c.answers paParams s.world r w ∧ o.trace = w.trace ∧
      t = s.finish o.result w ∧ (∀ b, o.answers b ↔ r = .ok b) ∧ o.result.isOk = r.isOk := by
  obtain ⟨this, num, pvar, r, w, _, hm, hexit, rfl, rfl⟩ := method_step h hc
  cases hexit with
  | unknown hm' => simp [hm] at hm'
  | version hm' _ => simp [hm] at hm'
  | sent hm' _ _ => simp [hm] at hm'
  | notSent hm' _ => simp [hm] at hm'
  | @received b _ _ hcons =>
    refine ⟨.ok b, w, hcons, rfl, rfl, ?_, rfl⟩
    intro b'
    constructor
    · rintro ⟨val, hval, _, hb⟩
      cases hval
      exact congrArg _ hb
    · intro hb
      cases hb
      exact ⟨_, rfl, rfl, rfl⟩
  | @notReceived e _ _ hcons =>
    refine ⟨.error e, w, hcons, rfl, rfl, ?_, rfl⟩
    intro b
    constructor
    · rintro ⟨val, hval, _⟩
      cases hval
    · intro hb
      cases hb

/-- What `produce` returns reaches the host when there is memory for it. -/
theorem produce_step (h : stepProcess platform c s = some (o, t))
    (hc : c.op.calls .eProduce = some paParams) :
    ∃ r w es, ProduceExit c.answers paParams s.world r w ∧ o.trace = w.trace ++ es ∧
      (∀ e ∈ es, e.ofHost = true) ∧ t.next = w.next ∧
      t.gMessage = w.gMessage ∧ t.gKey = w.gKey ∧
      (Hosted c s → ∀ text, r = .ok text →
        ∃ pvar, o.result = .ok (.variant true (returned (ascii text) pvar))) ∧
      ∀ val, o.result = .ok (.variant true val) → Hosted c s ∧
        ∃ text pvar, r = .ok text ∧ val = returned (ascii text) pvar := by
  obtain ⟨this, num, pvar, r, w, hthis, hm, hexit, rfl, rfl⟩ := method_step h hc
  cases hexit with
  | unknown hm' => simp [hm] at hm'
  | version hm' _ => simp [hm] at hm'
  | received hm' _ => simp [hm] at hm'
  | notReceived hm' _ => simp [hm] at hm'
  | @sent text u _ _ hm' hprod hstr =>
    obtain ⟨es, hw, hes⟩ := (uniform_stringToTVariant _ _).world hstr
    refine ⟨.ok text, u, es, hprod, congrArg World.trace hw, hes, ?_⟩
    rcases ends_stringToTVariant hstr with ⟨hset, halloc, rfl, rfl⟩ | ⟨_, hno, rfl, rfl⟩ |
      ⟨hno, rfl, rfl⟩
    · refine ⟨rfl, rfl, rfl, ?_, ?_⟩
      · intro _ text' htext
        cases htext
        exact ⟨pvar, rfl⟩
      · intro val hval
        cases hval
        exact ⟨⟨⟨this, hthis, hset⟩, halloc⟩, text, pvar, rfl, rfl⟩
    · refine ⟨rfl, rfl, rfl, ?_, nofun⟩
      intro hosted
      rw [hosted.2] at hno
      cases hno
    · refine ⟨rfl, rfl, rfl, ?_, nofun⟩
      intro hosted
      obtain ⟨⟨this', hthis', hset⟩, _⟩ := hosted
      rw [hthis] at hthis'
      cases hthis'
      rw [hset] at hno
      cases hno
  | @notSent e _ _ hprod =>
    refine ⟨.error e, w, [], hprod, by simp, by simp, rfl, rfl, rfl, ?_, nofun⟩
    intro _ text htext
    cases htext

theorem ProduceExit.frame {r : Except Exit String} (h : ProduceExit a paParams w r w') :
    w'.gMessage = w.gMessage ∧ w'.gKey = w.gKey := by
  rcases h.cases with ⟨p, _, _, _, rfl⟩ | ⟨p, _, _, _, rfl⟩ | ⟨_, ⟨k, es, rfl, _⟩, _⟩ <;>
    exact ⟨rfl, rfl⟩

theorem stringToTVariant_frame {str : Bytes} {val : TVariant}
    {r : Except Exit (Bool × TVariant)} (h : Ends (stringToTVariant this a str val) w r w') :
    w'.gMessage = w.gMessage ∧ w'.gKey = w.gKey :=
  (uniform_stringToTVariant str val).frame h

theorem CallExit.frame {lMethodNum : Int} {pvar : TVariant} {r : Except Exit (Bool × TVariant)}
    (h : CallExit this a lMethodNum pvar paParams w r w')
    (hm : Methods.ofLong lMethodNum ≠ some .eConsume) :
    w'.gMessage = w.gMessage ∧ w'.gKey = w.gKey := by
  cases h with
  | unknown _ => exact ⟨rfl, rfl⟩
  | version _ hstr => exact stringToTVariant_frame hstr
  | sent _ hprod hstr =>
    obtain ⟨hmsg, hkey⟩ := stringToTVariant_frame hstr
    obtain ⟨hmsg', hkey'⟩ := hprod.frame
    exact ⟨hmsg.trans hmsg', hkey.trans hkey'⟩
  | notSent _ hprod => exact hprod.frame
  | received hm' _ => exact absurd hm' hm
  | notReceived hm' _ => exact absurd hm' hm

theorem frame_runRequest {request : Request} {r : Except Exit Ret} (htr : w.trace = [])
    (hc : (Op.request request).calls .eConsume = none)
    (h : Ends (runRequest platform this a request) w r w') :
    w'.gMessage = w.gMessage ∧ w'.gKey = w.gKey := by
  by_cases haside : request.aside = true
  · exact (uniform_runRequest haside).frame h
  · cases request with
    | getPropVal num pvar =>
      obtain ⟨r₀, hget, _⟩ := ends_bind_pure.mp h
      rcases ends_getPropVal hget with ⟨_, _, rfl⟩ | ⟨prop, _, hstr⟩
      · exact ⟨rfl, rfl⟩
      · exact stringToTVariant_frame hstr
    | callAsFunc num pvar ps size =>
      obtain ⟨r₀, hcall, _⟩ := ends_bind_pure.mp h
      exact (ends_callAsFunc htr hcall).frame (Op.calls_callAsFunc.mp hc)
    | _ => exact absurd rfl haside

/-- Only `consume` touches the two globals. -/
theorem frame_step (h : stepProcess platform c s = some (o, t))
    (hc : c.op.calls .eConsume = none) : t.gMessage = s.gMessage ∧ t.gKey = s.gKey := by
  obtain ⟨_, ⟨l, _, _, _, _, _, rfl⟩ | ⟨request, this, r, w, hreq, hthis, hrun, rfl, rfl⟩⟩ :=
    stepProcess_cases h
  · exact ⟨rfl, rfl⟩
  · rw [hreq] at hc
    exact frame_runRequest rfl hc hrun

theorem quiet_runRequest {request : Request} {r : Except Exit Ret} (htr : w.trace = [])
    (hc : (Op.request request).calls .eConsume = none)
    (hp : (Op.request request).calls .eProduce = none)
    (h : Ends (runRequest platform this a request) w r w') :
    ∃ es, w' = w.after 0 es ∧ ∀ e ∈ es, e.ofHost = true := by
  by_cases haside : request.aside = true
  · exact (uniform_runRequest haside).world h
  · cases request with
    | getPropVal num pvar =>
      obtain ⟨r₀, hget, _⟩ := ends_bind_pure.mp h
      rcases ends_getPropVal hget with ⟨_, _, rfl⟩ | ⟨prop, _, hstr⟩
      · exact ⟨[], (World.after_zero_nil _).symm, by simp⟩
      · exact (uniform_stringToTVariant _ _).world hstr
    | callAsFunc num pvar ps size =>
      obtain ⟨r₀, hcall, _⟩ := ends_bind_pure.mp h
      cases ends_callAsFunc htr hcall with
      | unknown _ => exact ⟨[], (World.after_zero_nil _).symm, by simp⟩
      | version _ hstr => exact (uniform_stringToTVariant _ _).world hstr
      | sent hm _ _ => exact absurd hm (Op.calls_callAsFunc.mp hp)
      | notSent hm _ => exact absurd hm (Op.calls_callAsFunc.mp hp)
      | received hm _ => exact absurd hm (Op.calls_callAsFunc.mp hc)
      | notReceived hm _ => exact absurd hm (Op.calls_callAsFunc.mp hc)
    | _ => exact absurd rfl haside

/-- Only the two methods that talk to Kafka do more than ask the host for memory. -/
theorem quiet_step (h : stepProcess platform c s = some (o, t))
    (hc : c.op.calls .eConsume = none) (hp : c.op.calls .eProduce = none) :
    t.next = s.next ∧ ∀ e ∈ o.trace, e.ofHost = true := by
  obtain ⟨_, ⟨l, _, _, _, _, rfl, rfl⟩ | ⟨request, this, r, w, hreq, hthis, hrun, rfl, rfl⟩⟩ :=
    stepProcess_cases h
  · exact ⟨rfl, by simp⟩
  · rw [hreq] at hc hp
    obtain ⟨es, rfl, hes⟩ := quiet_runRequest rfl hc hp hrun
    refine ⟨rfl, ?_⟩
    intro e he
    rw [World.after_trace] at he
    exact (List.mem_append.mp he).elim (fun he => by cases he) (hes e)

end KafkaAddIn
