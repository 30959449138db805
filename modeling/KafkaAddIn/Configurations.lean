import KafkaAddIn.Sessions

namespace KafkaAddIn

open Foundation

variable {platform : Platform} {a : Answers} {paParams : Nat → TVariant} {c : HostCall}
  {s t : Process} {o : Outcome} {history : History} {p : Nat → Bytes} {n : Handle}
  {settings : List Setting}

/-- How far a configuration has come. -/
inductive ConfState
  | unmade
  /-- The settings made so far, each with the text that librdkafka reads. -/
  | building (given : List (String × Bytes))
  /-- It has refused a setting. -/
  | refused
  /-- A client has been made from it and owns it. -/
  | taken (type : ClientType) (given : List (String × Bytes))
  /-- The callback has been set on it when it was no longer the component's. -/
  | setLate (type : ClientType) (given : List (String × Bytes))
  /-- No client could be made from it. -/
  | unusable
  | destroyed
  deriving DecidableEq, Repr

def ConfState.next : ConfState → Event → Option ConfState
  | .unmade, .confNew _ => some (.building [])
  | .building given, .confSet _ name value res =>
    some (if res = .ok then .building (given ++ [(name, value)]) else .refused)
  | .building given, .new type _ (some _) => some (.taken type given)
  | .building _, .new _ _ none => some .unusable
  | .taken type given, .confSetDrMsgCb _ => some (.setLate type given)
  | .refused, .confDestroy _ => some .destroyed
  | .unusable, .confDestroy _ => some .destroyed
  | _, _ => none

def confSessions : Typestate Event Handle ConfState where
  subject
    | .confNew conf => some conf
    | .confSet conf _ _ _ => some conf
    | .confSetDrMsgCb conf => some conf
    | .confDestroy conf => some conf
    | .new _ conf _ => some conf
    | _ => none
  start := .unmade
  next := ConfState.next

/-- What librdkafka is given: each value up to its first zero byte. -/
def given (settings : List Setting) : List (String × Bytes) :=
  settings.map fun s => (s.name, cString 0 s.value)

/-- Where a method leaves a client's configuration. -/
def ConfState.held (type : ClientType) (settings : List Setting) : ConfState :=
  match type with
  | .consumer => .taken .consumer (given settings)
  | .producer => .setLate .producer (given settings)

def ConfState.left (a : Answers) (type : ClientType) (settings : List Setting) : ConfState :=
  if a.new && settings.all fun s => a.confSet s.name = .ok then .held type settings
  else .destroyed

theorem ConfState.left_of_new (hacc : Accepted a settings) (hnew : a.new = true)
    (type : ClientType) : ConfState.left a type settings = .held type settings := by
  apply if_pos
  rw [hnew, Bool.true_and]
  apply List.all_eq_true.mpr
  intro s hs
  exact decide_eq_true (hacc s hs)

theorem ConfState.left_of_refused {x : Setting} {before rest : List Setting}
    (hsplit : settings = before ++ x :: rest) (hbad : a.confSet x.name ≠ .ok)
    (type : ClientType) : ConfState.left a type settings = .destroyed := by
  apply if_neg
  intro h
  have hall := List.all_eq_true.mp (Bool.and_eq_true_iff.mp h).2
  have hmem : x ∈ settings := hsplit ▸ List.mem_append_right before List.mem_cons_self
  exact hbad (of_decide_eq_true (hall x hmem))

theorem ConfState.left_of_not_new (hnew : a.new = false) (type : ClientType)
    (settings : List Setting) : ConfState.left a type settings = .destroyed := by
  apply if_neg
  simp [hnew]

theorem confLeads_reads (k : Nat) (x : ConfState) : confSessions.Leads n x (reads k) x := by
  apply Typestate.leads_apart
  intro e he
  obtain ⟨i, _, rfl⟩ := List.mem_map.mp he
  rfl

/-- Settings that are accepted are recorded in their order. -/
theorem confLeads_settings (hacc : Accepted a settings)
    (made : List (String × Bytes)) :
    confSessions.Leads n (.building made) (settingEvents a n settings)
      (.building (made ++ given settings)) := by
  induction settings generalizing made with
  | nil =>
    have hnone : made ++ given [] = made := List.append_nil made
    rw [hnone]
    exact Typestate.leads_apart (by simp [settingEvents])
  | cons x settings ih =>
    have hx : a.confSet x.name = .ok := hacc x List.mem_cons_self
    have hrest : Accepted a settings := fun y hy => hacc y (List.mem_cons_of_mem x hy)
    have hset : ConfState.next (.building made) (.confSet n x.name (cString 0 x.value)
        (a.confSet x.name)) = some (.building (made ++ [(x.name, cString 0 x.value)])) := by
      simp [ConfState.next, hx]
    have hone : confSessions.Leads n (.building made)
        [.confSet n x.name (cString 0 x.value) (a.confSet x.name)]
        (.building (made ++ [(x.name, cString 0 x.value)])) := Typestate.leads_one rfl hset
    have hall := hone.append (ih hrest (made ++ [(x.name, cString 0 x.value)]))
    simpa [settingEvents, given] using hall

theorem confLeads_made (hacc : Accepted a settings) (k : Nat) :
    confSessions.Leads n .unmade (reads k ++ .confNew n :: settingEvents a n settings)
      (.building (given settings)) := by
  have hmade : confSessions.Leads n .unmade [.confNew n] (.building []) := Typestate.leads_one rfl rfl
  have hset := confLeads_settings (n := n) hacc []
  exact (confLeads_reads k .unmade).append (hmade.append hset)

theorem confLeads_refused {x : Setting} {before : List Setting} (hacc : Accepted a before)
    (hbad : a.confSet x.name ≠ .ok) (k : Nat) :
    confSessions.Leads n .unmade
      (reads k ++ .confNew n :: settingEvents a n (before ++ [x]) ++ [.confDestroy n])
      .destroyed := by
  have hno : ConfState.next (.building (given before)) (.confSet n x.name (cString 0 x.value)
      (a.confSet x.name)) = some .refused := by
    simp [ConfState.next, hbad]
  have hlast : confSessions.Leads n (.building (given before))
      [.confSet n x.name (cString 0 x.value) (a.confSet x.name)] .refused :=
    Typestate.leads_one rfl hno
  have hend : confSessions.Leads n .refused [.confDestroy n] .destroyed :=
    Typestate.leads_one rfl rfl
  have hall := (confLeads_made (n := n) hacc k).append (hlast.append hend)
  simpa [settingEvents] using hall

theorem confLeads_notCreated (hacc : Accepted a settings) (k : Nat)
    (type : ClientType) :
    confSessions.Leads n .unmade (reads k ++ .confNew n :: settingEvents a n settings ++
      [.new type n none, .confDestroy n]) .destroyed := by
  have hnew : confSessions.Leads n (.building (given settings)) [.new type n none] .unusable :=
    Typestate.leads_one rfl rfl
  have hend : confSessions.Leads n .unusable [.confDestroy n] .destroyed :=
    Typestate.leads_one rfl rfl
  exact (confLeads_made hacc k).append (hnew.append hend)

theorem confLeads_open (hacc : Accepted a settings) (k : Nat)
    (type : ClientType) :
    confSessions.Leads n .unmade (reads k ++ openEvents a type n settings)
      (.taken type (given settings)) := by
  have hnew : confSessions.Leads n (.building (given settings)) [.new type n (some (n + 1))]
      (.taken type (given settings)) := Typestate.leads_one rfl rfl
  have hall := (confLeads_made (n := n) hacc k).append hnew
  simpa [openEvents] using hall

/-- A call has left a configuration so, which it made of the texts of its own parameters. -/
inductive ConfiguredBy (c : HostCall) : ConfState → Prop
  | consume {paParams : Nat → TVariant} {p : Nat → Bytes} :
      c.op.calls .eConsume = some paParams → Decoded c.answers paParams 5 p →
      ConfiguredBy c (.left c.answers .consumer (consumeSettingsOf p))
  | produce {paParams : Nat → TVariant} {p : Nat → Bytes} :
      c.op.calls .eProduce = some paParams → Decoded c.answers paParams 6 p →
      ConfiguredBy c (.left c.answers .producer (produceSettingsOf p))

def ConfOnce (c : HostCall) (n n' : Handle) (trace : List Event) : Prop :=
  confSessions.OneSession (ConfiguredBy c) n n' trace

theorem confOnce_reads (k : Nat) : ConfOnce c n n (reads k) := by
  refine Typestate.OneSession.without (Nat.le_refl n) ?_
  intro e he
  obtain ⟨i, _, rfl⟩ := List.mem_map.mp he
  rfl

theorem confOnce_of {n' : Handle} {last : ConfState} {es : List Event} (hroom : n < n')
    (hlast : ConfiguredBy c last) (h : confSessions.Leads n .unmade es last) :
    ConfOnce c n n' es :=
  Typestate.OneSession.of (Nat.le_refl n) hroom hlast h

theorem confOnce_subscribed {n' : Handle} {rest : List Event} (hroom : n < n')
    (hc : c.op.calls .eConsume = some paParams) (hdec : Decoded c.answers paParams 5 p)
    (hacc : Accepted c.answers (consumeSettingsOf p)) (hnew : c.answers.new = true)
    (hrest : ∀ e ∈ rest, confSessions.subject e = none) :
    ConfOnce c n n' (subscribedEvents c.answers p n ++ rest) := by
  have hsub : confSessions.Leads n (.taken .consumer (given (consumeSettingsOf p)))
      (subscribeEvents c.answers (n + 1) (n + 2) (p 1))
      (.taken .consumer (given (consumeSettingsOf p))) :=
    Typestate.leads_apart (by simp [subscribeEvents, confSessions])
  have hopen := confLeads_open (n := n) hacc 5 .consumer
  have hall := (hopen.append hsub).append (Typestate.leads_apart hrest)
  have hby : ConfiguredBy c (.held .consumer (consumeSettingsOf p)) := by
    rw [← ConfState.left_of_new hacc hnew]
    exact ConfiguredBy.consume hc hdec
  exact confOnce_of hroom hby hall

theorem conf_consume (h : stepProcess platform c s = some (o, t))
    (hc : c.op.calls .eConsume = some paParams) : ConfOnce c s.next t.next o.trace := by
  obtain ⟨r, w, hexit, htrace, rfl, _⟩ := consume_step h hc
  rw [htrace]
  change ConfOnce c s.next w.next w.trace
  have hread : ∀ (p : Nat → Bytes) (record : Record) (es : List Event),
      Subscribed c.answers paParams p → (∀ e ∈ es, e = .messageRead (s.next + 3)) →
      ConfOnce c s.next (s.next + 4) (subscribedEvents c.answers p s.next ++
        closeEvents c.answers (s.next + 1) (s.next + 3) record ++ es) := by
    intro p record es hsub hes
    rw [List.append_assoc]
    refine confOnce_subscribed (Nat.lt_add_of_pos_right (by decide)) hc hsub.decoded hsub.accepted
      hsub.created ?_
    intro e he
    rcases List.mem_append.mp he with he | he
    · simp only [closeEvents, List.mem_cons, List.not_mem_nil, or_false] at he
      rcases he with rfl | rfl | rfl | rfl | rfl <;> rfl
    · rw [hes e he]
      rfl
  cases hexit with
  | unreadable _ _ _ => exact confOnce_reads _
  | undecodable _ _ _ _ => exact confOnce_reads _
  | refused hdec hsplit hacc hbad =>
    have hleft := ConfState.left_of_refused hsplit hbad .consumer
    exact confOnce_of (Nat.lt_succ_self _) (hleft ▸ ConfiguredBy.consume hc hdec)
      (confLeads_refused hacc hbad 5)
  | @notCreated p hdec hacc hnew =>
    have hleft := ConfState.left_of_not_new hnew .consumer (consumeSettingsOf p)
    exact confOnce_of (Nat.lt_succ_self _) (hleft ▸ ConfiguredBy.consume hc hdec)
      (confLeads_notCreated hacc 5 .consumer)
  | notSubscribed hdec hacc hnew _ =>
    exact confOnce_subscribed (Nat.lt_add_of_pos_right (by decide)) hc hdec hacc hnew
      (by simp [confSessions])
  | timedOut hsub _ =>
    exact confOnce_subscribed (Nat.lt_add_of_pos_right (by decide)) hc hsub.decoded hsub.accepted
      hsub.created (by simp [confSessions])
  | pollError hsub _ _ =>
    exact confOnce_subscribed (Nat.lt_add_of_pos_right (by decide)) hc hsub.decoded hsub.accepted
      hsub.created (by simp [confSessions])
  | messageLost hsub _ _ => exact hread _ _ _ hsub (by simp [Process.world])
  | keyLost hsub _ _ _ => exact hread _ _ _ hsub (by simp [Process.world])
  | done hsub _ _ _ => exact hread _ _ _ hsub (by simp [Process.world])

theorem confLeads_enqueue (hacc : Accepted a (produceSettingsOf p)) :
    confSessions.Leads n .unmade (enqueueEvents a p n)
      (.setLate .producer (given (produceSettingsOf p))) := by
  have hset : confSessions.Leads n (.taken .producer (given (produceSettingsOf p)))
      [.confSetDrMsgCb n] (.setLate .producer (given (produceSettingsOf p))) :=
    Typestate.leads_one rfl rfl
  have hput : confSessions.Leads n (.setLate .producer (given (produceSettingsOf p)))
      [.signal, .producev (n + 1) (cString 0 (p 1)) (p 4) (p 5) a.producev]
      (.setLate .producer (given (produceSettingsOf p))) :=
    Typestate.leads_apart (by simp [confSessions])
  exact (confLeads_open hacc 6 .producer).append (hset.append hput)

theorem confApart_deliver {rk : Handle} {e : Event} (h : e ∈ deliverEvents a rk) :
    confSessions.subject e = none := by
  rcases mem_deliverEvents h with rfl | ⟨_, rfl⟩ | rfl | rfl <;> rfl

theorem confApart_ofHost {e : Event} (h : e.ofHost = true) : confSessions.subject e = none := by
  cases e <;> first | rfl | cases h

/-- What the host is asked for at the end of a call is nothing to its configuration. -/
theorem ConfOnce.ofHost {n' : Handle} {es fs : List Event} (h : ConfOnce c n n' es)
    (hfs : ∀ e ∈ fs, e.ofHost = true) : ConfOnce c n n' (es ++ fs) := by
  have hapart : ∀ e ∈ fs, confSessions.subject e = none := fun e he => confApart_ofHost (hfs e he)
  cases h with
  | without hle hnone =>
    refine Typestate.OneSession.without hle ?_
    intro e he
    exact (List.mem_append.mp he).elim (hnone e) (hapart e)
  | of hle hlt hlast hleads =>
    exact Typestate.OneSession.of hle hlt hlast (hleads.append (Typestate.leads_apart hapart))

theorem ConfiguredBy.opened (hc : c.op.calls .eProduce = some paParams)
    (hopen : Opened c.answers paParams p) :
    ConfiguredBy c (.held .producer (produceSettingsOf p)) := by
  rw [← ConfState.left_of_new hopen.accepted hopen.created]
  exact ConfiguredBy.produce hc hopen.decoded

theorem conf_produce (h : stepProcess platform c s = some (o, t))
    (hc : c.op.calls .eProduce = some paParams) : ConfOnce c s.next t.next o.trace := by
  obtain ⟨r, w, es, hexit, htrace, hes, hnext, _⟩ := produce_step h hc
  rw [htrace, hnext]
  apply ConfOnce.ofHost _ hes
  cases hexit with
  | unreadable _ _ _ => exact confOnce_reads _
  | undecodable _ _ _ _ => exact confOnce_reads _
  | refused hdec hsplit hacc hbad =>
    have hleft := ConfState.left_of_refused hsplit hbad .producer
    exact confOnce_of (Nat.lt_succ_self _) (hleft ▸ ConfiguredBy.produce hc hdec)
      (confLeads_refused hacc hbad 6)
  | @notCreated p hdec hacc hnew =>
    have hleft := ConfState.left_of_not_new hnew .producer (produceSettingsOf p)
    exact confOnce_of (Nat.lt_succ_self _) (hleft ▸ ConfiguredBy.produce hc hdec)
      (confLeads_notCreated hacc 6 .producer)
  | @notEnqueued p hopen _ =>
    have hpoll : ∀ e ∈ (if c.answers.producev = respErrQueueFull then
        [Event.poll (s.next + 1) 1000] else []), confSessions.subject e = none := by
      split <;> simp [confSessions]
    exact confOnce_of (Nat.lt_add_of_pos_right (by decide)) (ConfiguredBy.opened hc hopen)
      ((confLeads_enqueue hopen.accepted).append (Typestate.leads_apart hpoll))
  | @persisted p hopen _ =>
    exact confOnce_of (Nat.lt_add_of_pos_right (by decide)) (ConfiguredBy.opened hc hopen)
      ((confLeads_enqueue hopen.accepted).append
        (Typestate.leads_apart fun _ he => confApart_deliver he))

theorem conf_step (h : stepProcess platform c s = some (o, t)) :
    ConfOnce c s.next t.next o.trace := by
  cases hc : c.op.calls .eConsume with
  | some ps => exact conf_consume h hc
  | none =>
    cases hp : c.op.calls .eProduce with
    | some ps => exact conf_produce h hp
    | none =>
      obtain ⟨hnext, hquiet⟩ := quiet_step h hc hp
      refine Typestate.OneSession.without (Nat.le_of_eq hnext.symm) ?_
      intro e he
      exact confApart_ofHost (hquiet e he)

/-- Whatever the host calls and librdkafka answers: all that happens to a configuration happens
in one call, and no client is made from one that has refused a setting or lacks one. The call
leaves it destroyed, or a client has it with every setting of the method, of the texts of that
call and in the source's order, and a producer's has been touched once more. -/
theorem configurations_whole (h : ProcessRun platform history s) (conf : Handle) :
    confSessions.about conf history.trace = [] ∨
      ∃ e ∈ history, confSessions.about conf e.outcome.trace ≠ [] ∧
        confSessions.about conf history.trace = confSessions.about conf e.outcome.trace ∧
        ∃ last, confSessions.state history.trace conf = some last ∧ ConfiguredBy e.call last :=
  Run.sessions (R := fun e last => ConfiguredBy e.call last) Process.next Outcome.trace
    (fun _ _ _ _ => conf_step) h conf

theorem configurations_whole_oneRecord :
    let run := execCalls (newObject 0 ++ [consumeCall 0 hiAnswers])
    confSessions.about 0 (History.trace run.1) = [] ∨
      ∃ e ∈ run.1, confSessions.about 0 e.outcome.trace ≠ [] ∧
        confSessions.about 0 (History.trace run.1) = confSessions.about 0 e.outcome.trace ∧
        ∃ last, confSessions.state (History.trace run.1) 0 = some last ∧
          ConfiguredBy e.call last :=
  configurations_whole (run_execFrom Run.nil _) 0

end KafkaAddIn
