import KafkaAddIn.MessageKey

namespace KafkaAddIn

open Foundation

variable {platform : Platform} {a : Answers} {paParams : Nat → TVariant} {c : HostCall}
  {s t : Process} {o : Outcome} {history : History}

/-- A report without an error has come in for a record that was enqueued, while its client
was there. -/
def Acknowledged (trace : List Event) : Prop :=
  ∃ rk topic key value before after,
    trace = before ++ .deliveryReport rk respErrNoError :: after ∧
    .producev rk topic key value respErrNoError ∈ before ∧ ∀ committed, .destroy rk committed ∉ before

def Delivered (a : Answers) : Prop := ∃ delivery, a.delivery = some delivery ∧
  delivery.err = respErrNoError

theorem delivered_of_report {p : Nat → Bytes} {n rk : Handle} {es : List Event}
    (hes : ∀ e ∈ es, e.ofHost = true)
    (h : .deliveryReport rk respErrNoError ∈ enqueueEvents a p n ++ deliverEvents a (n + 1) ++ es) :
    Delivered a := by
  have hreport : ∀ arrival, .deliveryReport rk respErrNoError ∈ reportEvents a (n + 1) arrival →
      Delivered a := by
    intro arrival he
    unfold reportEvents at he
    split at he
    next delivery hd =>
      split at he
      next =>
        have hsame := List.mem_singleton.mp he
        simp only [Event.deliveryReport.injEq] at hsame
        exact ⟨delivery, hd, hsame.2.symm⟩
      next => cases he
    next => cases he
  rcases List.mem_append.mp h with h | h
  · rcases List.mem_append.mp h with h | h
    · rcases mem_enqueueEvents h with ⟨_, h⟩ | h | ⟨_, _, _, h⟩ | h | h | h | h <;> cases h
    · simp only [deliverEvents, List.mem_append, List.mem_cons, reduceCtorEq, List.not_mem_nil,
        or_false, false_or] at h
      exact h.elim (hreport _) (hreport _)
  · cases hes _ h

theorem acknowledged_of_delivered {p : Nat → Bytes} {n : Handle} {es : List Event}
    (henq : a.producev = respErrNoError) (h : Delivered a) :
    Acknowledged (enqueueEvents a p n ++ deliverEvents a (n + 1) ++ es) := by
  obtain ⟨⟨arrival, err⟩, hd, herr⟩ := h
  change err = respErrNoError at herr
  refine ⟨n + 1, cString 0 (p 1), p 4, p 5, enqueueEvents a p n ++ [.poll (n + 1) 0],
    .flush (n + 1) 1000 (flushErr a) :: .destroy (n + 1) a.destroyCommits :: es, ?_, ?_, ?_⟩
  · cases arrival <;> simp [deliverEvents, reportEvents, hd, herr]
  · simp [enqueueEvents, henq]
  · intro committed h
    rcases List.mem_append.mp h with h | h
    · rcases mem_enqueueEvents h with ⟨_, h⟩ | h | ⟨_, _, _, h⟩ | h | h | h | h <;> cases h
    · cases List.mem_singleton.mp h

/-- A call that says "Persisted" has had its record acknowledged, and one that says
anything else has enqueued none. -/
structure NoFalseAcknowledgement (o : Outcome) : Prop where
  persisted : ∀ val, o.result = .ok (.variant true val) → ByteExact (ascii "Persisted") val →
    Acknowledged o.trace
  otherwise : ∀ val, o.result = .ok (.variant true val) → ¬ ByteExact (ascii "Persisted") val →
    ∀ e ∈ o.trace, e.enqueued = none

theorem byteExact_persisted_iff {text : String} {pvar : TVariant} (h : text ∈ produceTexts) :
    ByteExact (ascii "Persisted") (returned (ascii text) pvar) ↔ text = "Persisted" := by
  obtain ⟨hlen, hzero, hplain⟩ := produceTexts_plain text h
  constructor
  · intro hexact
    exact hplain (eq_of_byteExact_returned hlen hexact)
  · intro htext
    subst text
    exact (byteExact_returned_iff hlen).mpr hzero

def DeliversWhenAnswered (c : HostCall) (s : Process) (paParams : Nat → TVariant) : Prop :=
  Hosted c s → Enqueues c.answers paParams → Delivered c.answers

theorem noFalseAcknowledgement_step (h : stepProcess platform c s = some (o, t))
    (hc : c.op.calls .eProduce = some paParams) :
    NoFalseAcknowledgement o ↔ DeliversWhenAnswered c s paParams := by
  obtain ⟨r, w, es, hexit, htrace, hes, _, _, _, hhosted, hanswer⟩ := produce_step h hc
  have htexts : ∀ {text}, r = .ok text → text ∈ produceTexts := by
    intro text hr
    rw [hr] at hexit
    exact produce_text hexit
  by_cases henq : Enqueues c.answers paParams
  · have hpersist : r = .ok "Persisted" ∧ ∃ p, w.trace = enqueueEvents c.answers p s.next ++
        deliverEvents c.answers (s.next + 1) := by
      rcases hexit.cases with ⟨p, _, _, hr, rfl⟩ | ⟨_, _, hbad, _⟩ | ⟨hclosed, _⟩
      · exact ⟨hr, p, rfl⟩
      · exact absurd henq.2 hbad
      · obtain ⟨p, hopen⟩ := henq.1
        exact absurd hopen (hclosed p)
    obtain ⟨hr, p, hw⟩ := hpersist
    rw [hw] at htrace
    constructor
    · intro hlaw hhost _
      obtain ⟨pvar, hres⟩ := hhosted hhost _ hr
      have hexact : ByteExact (ascii "Persisted") (returned (ascii "Persisted") pvar) :=
        (byteExact_persisted_iff (htexts hr)).mpr rfl
      obtain ⟨rk, _, _, _, before, after, hsplit, _⟩ := hlaw.persisted _ hres hexact
      rw [htrace] at hsplit
      exact delivered_of_report hes (hsplit ▸ List.mem_append_right _ List.mem_cons_self)
    · intro hdeliver
      refine ⟨?_, ?_⟩
      · intro val hval _
        rw [htrace]
        exact acknowledged_of_delivered henq.2 (hdeliver (hanswer val hval).1 henq)
      · intro val hval hother
        obtain ⟨_, text, pvar, hr', rfl⟩ := hanswer val hval
        rw [hr] at hr'
        cases hr'
        exact absurd ((byteExact_persisted_iff (htexts hr)).mpr rfl) hother
  · have hnone : ∀ e ∈ o.trace, e.enqueued = none := by
      intro e he
      rw [htrace] at he
      rcases List.mem_append.mp he with he | he
      · exact hexit.enqueued_none rfl henq e he
      · have hhost := hes e he
        cases e <;> first | rfl | cases hhost
    refine iff_of_true ⟨?_, fun _ _ _ => hnone⟩ fun _ h => absurd h henq
    intro val hval hexact
    obtain ⟨_, text, pvar, hr, rfl⟩ := hanswer val hval
    have htext := (byteExact_persisted_iff (htexts hr)).mp hexact
    rw [htext] at hr
    rcases hexit.cases with ⟨p, hopen, hok, _⟩ | ⟨p, _, _, hr', _⟩ | ⟨_, _, hr' | ⟨what, hr'⟩⟩
    · exact absurd ⟨⟨p, hopen⟩, hok⟩ henq
    · rw [hr] at hr'
      exact absurd (Except.ok.inj hr').symm (exception_ne_persisted _)
    · rw [hr] at hr'
      cases hr'.1
    · rw [hr] at hr'
      exact absurd (Except.ok.inj hr').symm (exception_ne_persisted _)

theorem noFalseAcknowledgement_entry (h : ProcessRun platform history s) :
    ∀ e ∈ history, ∀ paParams, e.call.op.calls .eProduce = some paParams →
      (NoFalseAcknowledgement e.outcome ↔ DeliversWhenAnswered e.call e.before paParams) :=
  h.entry fun _ _ _ _ hs _ hc => noFalseAcknowledgement_step hs hc

/-- `produce` says "Persisted" for what is only enqueued: in a run no such answer is false
exactly when every record that was enqueued is reported on without an error before the
flush gives up. -/
theorem noFalseAcknowledgement_iff (h : ProcessRun platform history s) :
    (∀ e ∈ history, ∀ paParams, e.call.op.calls .eProduce = some paParams →
      NoFalseAcknowledgement e.outcome) ↔
    ∀ e ∈ history, ∀ paParams, e.call.op.calls .eProduce = some paParams →
      DeliversWhenAnswered e.call e.before paParams := by
  apply h.forall_entry_iff
  intro c s o t hs
  apply forall₂_congr
  intro ps hc
  exact noFalseAcknowledgement_step hs hc

/-- A call of `produce` for the record with key "k" and value "v" to the topic "t". -/
def produceCall (obj : ObjId) (answers : Answers) : HostCall :=
  ⟨obj, .request (.callAsFunc 1 {} (recordParams [116] [107] [118]) 6), answers⟩

theorem opened_produceCall {a : Answers} (hmem : ∀ i, a.memory i = true)
    (hset : ∀ name, a.confSet name = .ok) (hnew : a.new = true) :
    Opened a (recordParams [116] [107] [118]) fun i =>
      if i = 1 then [116] else if i = 4 then [107] else if i = 5 then [118] else [117] := by
  refine ⟨?_, fun setting _ => hset setting.name, hnew⟩
  intro i hi
  have hcases : i = 0 ∨ i = 1 ∨ i = 2 ∨ i = 3 ∨ i = 4 ∨ i = 5 := by omega
  rcases hcases with rfl | rfl | rfl | rfl | rfl | rfl <;> simp only [paramText, hmem] <;>
    decide +kernel

theorem noFalseAcknowledgement_delivered :
    let run := execCalls (newObject 0 ++ [produceCall 0 { delivery := some ⟨.inFlush, 0⟩ }])
    (∀ e ∈ run.1, ∀ paParams, e.call.op.calls .eProduce = some paParams →
      NoFalseAcknowledgement e.outcome) ↔
    ∀ e ∈ run.1, ∀ paParams, e.call.op.calls .eProduce = some paParams →
      DeliversWhenAnswered e.call e.before paParams :=
  noFalseAcknowledgement_iff (run_execFrom Run.nil _)

/-- The broker does not answer within the second that the flush waits. -/
theorem silentBroker_persisted :
    let run := execCalls (newObject 0 ++ [produceCall 0 { delivery := none }])
    ProcessRun .other run.1 run.2 ∧
      ¬ ∀ e ∈ run.1, ∀ paParams, e.call.op.calls .eProduce = some paParams →
        NoFalseAcknowledgement e.outcome := by
  intro run
  have hrun : ProcessRun .other run.1 run.2 := run_execFrom Run.nil _
  refine ⟨hrun, ?_⟩
  intro h
  have hmem := List.mem_of_getElem? (rfl : run.1[2]? = some _)
  have hlaw := h _ hmem _ rfl
  have hopen := opened_produceCall (a := { delivery := none }) (fun _ => rfl) (fun _ => rfl) rfl
  obtain ⟨delivery, hd, _⟩ := (noFalseAcknowledgement_entry hrun _ hmem _ rfl).mp hlaw
    ⟨⟨_, rfl, rfl⟩, rfl⟩ ⟨⟨_, hopen⟩, rfl⟩
  cases hd

end KafkaAddIn
