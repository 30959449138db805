import KafkaAddIn.HostValues

namespace KafkaAddIn

open Foundation

variable {this : CKafka} {a : Answers} {paParams : Nat → TVariant} {w w' : World}
  {p : Nat → Bytes}

theorem Decoded.failed_eq {k j : Nat} {q : Nat → Bytes} {e e' : Exit}
    (hk : Decoded a paParams k p) (hke : paramText a paParams k = .error e)
    (hj : Decoded a paParams j q) (hje : paramText a paParams j = .error e') : k = j := by
  by_contra hne
  rcases Nat.lt_or_gt_of_ne hne with hlt | hlt
  · rw [hj k hlt] at hke
    cases hke
  · rw [hk j hlt] at hje
    cases hje

theorem decodeParams_broken {n k : Nat} {e : Exit} (hk : k < n) (hdec : Decoded a paParams k p)
    (herr : paramText a paParams k = .error e) (w : World) :
    Ends (decodeParams a paParams n) w (.error e) (w.after 0 (reads (k + 1))) := by
  apply Ends.of_only
  intro r t h
  rcases ends_decodeParams h with ⟨q, _, hq, _⟩ | ⟨j, q, e', _, hq, hje, rfl, rfl⟩
  · rw [hq k hk] at herr
    cases herr
  · have hkj := hdec.failed_eq herr hq hje
    subst j
    have hsame : e' = e := Except.error.inj (hje.symm.trans herr)
    exact ⟨congrArg Except.error hsame, rfl⟩

theorem decodeParams_decoded {n : Nat} (hdec : Decoded a paParams n p) (w : World) :
    ∃ q, Ends (decodeParams a paParams n) w (.ok q) (w.after 0 (reads n)) ∧
      ∀ i < n, q i = p i := by
  have hrun := ends_run (decodeParams a paParams n) w
  rcases ends_decodeParams hrun with ⟨q, hok, hq, hw⟩ | ⟨k, _, e, hk, _, herr, _⟩
  · rw [hok, hw] at hrun
    refine ⟨q, hrun, ?_⟩
    intro i hi
    exact Except.ok.inj ((hq i hi).symm.trans (hdec i hi))
  · rw [hdec k hk] at herr
    cases herr

theorem Accepted.mid {settings before rest : List Setting} {s : Setting}
    (h : Accepted a settings) (hl : settings = before ++ s :: rest) : a.confSet s.name = .ok :=
  h s (hl ▸ List.mem_append_right _ List.mem_cons_self)

/-- The first setting that is refused. -/
theorem refused_unique {before before' rest rest' : List Setting} {s s' : Setting}
    (hl : before ++ s :: rest = before' ++ s' :: rest') (hacc : Accepted a before)
    (hbad : a.confSet s.name ≠ .ok) (hacc' : Accepted a before') (hbad' : a.confSet s'.name ≠ .ok) :
    before = before' ∧ s = s' := by
  induction before generalizing before' with
  | nil =>
    cases before' with
    | nil => exact ⟨rfl, (List.cons.inj hl).1⟩
    | cons x before' =>
      have hx : s = x := (List.cons.inj hl).1
      exact absurd (hx ▸ hacc' x List.mem_cons_self) hbad
  | cons x before ih =>
    cases before' with
    | nil =>
      have hx : x = s' := (List.cons.inj hl).1
      exact absurd (hx ▸ hacc x List.mem_cons_self) hbad'
    | cons y before' =>
      obtain ⟨rfl, hrest⟩ := List.cons.inj hl
      obtain ⟨rfl, rfl⟩ := ih hrest (fun z hz => hacc z (List.mem_cons_of_mem x hz))
        fun z hz => hacc' z (List.mem_cons_of_mem x hz)
      exact ⟨rfl, rfl⟩

section Client

variable (type : ClientType) {settings : List Setting} (failed : String)

theorem openClient_created (hnew : a.new = true) (hacc : Accepted a settings) (w : World) :
    Ends (openClient a type settings failed) w (.ok (w.next, w.next + 1))
      (w.after 2 (openEvents a type w.next settings)) := by
  apply Ends.of_only
  intro r t h
  rcases ends_openClient h with ⟨_, _, hr, ht⟩ | ⟨before, s, rest, hl, _, hbad, _⟩ | ⟨hno, _⟩
  · exact ⟨hr, ht⟩
  · exact absurd (hacc.mid hl) hbad
  · rw [hnew] at hno
    cases hno

theorem openClient_refused {before rest : List Setting} {s : Setting}
    (hl : settings = before ++ s :: rest) (hacc : Accepted a before)
    (hbad : a.confSet s.name ≠ .ok) (w : World) :
    Ends (openClient a type settings failed) w (.error (.runtimeError s.what))
      (w.after 1 (.confNew w.next :: settingEvents a w.next (before ++ [s]) ++
        [.confDestroy w.next])) := by
  apply Ends.of_only
  intro r t h
  rcases ends_openClient h with ⟨_, hall, _⟩ | ⟨before', s', rest', hl', hacc', hbad', hr, ht⟩ |
    ⟨_, hall, _⟩
  · exact absurd (hall.mid hl) hbad
  · obtain ⟨rfl, rfl⟩ := refused_unique (hl.symm.trans hl') hacc hbad hacc' hbad'
    exact ⟨hr, ht⟩
  · exact absurd (hall.mid hl) hbad

theorem openClient_notCreated (hno : a.new = false) (hacc : Accepted a settings) (w : World) :
    Ends (openClient a type settings failed) w (.error (.runtimeError failed))
      (w.after 1 (.confNew w.next :: settingEvents a w.next settings ++
        [.new type w.next none, .confDestroy w.next])) := by
  apply Ends.of_only
  intro r t h
  rcases ends_openClient h with ⟨hnew, _⟩ | ⟨before, s, rest, hl, _, hbad, _⟩ | ⟨_, _, hr, ht⟩
  · rw [hno] at hnew
    cases hnew
  · exact absurd (hacc.mid hl) hbad
  · exact ⟨hr, ht⟩

end Client

theorem subscribeTopic_subscribed (rk : Handle) (p_topic : Bytes)
    (hsub : a.subscribe = respErrNoError) (w : World) :
    Ends (subscribeTopic a rk p_topic) w (.ok ())
      (w.after 1 (subscribeEvents a rk w.next p_topic)) := by
  apply Ends.of_only
  intro r t h
  rcases ends_subscribeTopic h with ⟨_, hr, ht⟩ | ⟨hbad, _⟩
  · exact ⟨hr, ht⟩
  · exact absurd hsub hbad

theorem subscribeTopic_failed (rk : Handle) (p_topic : Bytes)
    (hbad : a.subscribe ≠ respErrNoError) (w : World) :
    Ends (subscribeTopic a rk p_topic) w
      (.error (.runtimeError "error Failed to subscribe to topic"))
      (w.after 1 (subscribeEvents a rk w.next p_topic ++
        [.listDestroy w.next, .destroy rk a.destroyCommits])) := by
  apply Ends.of_only
  intro r t h
  rcases ends_subscribeTopic h with ⟨hsub, _⟩ | ⟨_, hr, ht⟩
  · exact absurd hsub hbad
  · exact ⟨hr, ht⟩

/-- The guards of the exits exclude each other. -/
theorem PollExit.unique {rk : Handle} {r r' : Except Exit Bool} {t t' : World}
    (h : PollExit a rk w r t) (h' : PollExit a rk w r' t') : r = r' ∧ t = t' := by
  cases h with
  | timedOut hp =>
    cases h' with
    | timedOut _ => exact ⟨rfl, rfl⟩
    | pollError hp' _ => cases hp.symm.trans hp'
    | messageLost hp' _ => cases hp.symm.trans hp'
    | keyLost hp' _ _ => cases hp.symm.trans hp'
    | done hp' _ _ => cases hp.symm.trans hp'
  | pollError hp hbad =>
    cases h' with
    | timedOut hp' => cases hp.symm.trans hp'
    | pollError hp' _ =>
      cases hp.symm.trans hp'
      exact ⟨rfl, rfl⟩
    | messageLost hp' _ =>
      cases hp.symm.trans hp'
      exact absurd rfl hbad
    | keyLost hp' _ _ =>
      cases hp.symm.trans hp'
      exact absurd rfl hbad
    | done hp' _ _ =>
      cases hp.symm.trans hp'
      exact absurd rfl hbad
  | messageLost hp hm =>
    cases h' with
    | timedOut hp' => cases hp.symm.trans hp'
    | pollError hp' hbad =>
      cases hp.symm.trans hp'
      exact absurd rfl hbad
    | messageLost hp' _ =>
      cases hp.symm.trans hp'
      exact ⟨rfl, rfl⟩
    | keyLost _ hm' _ => cases hm.symm.trans hm'
    | done _ hm' _ => cases hm.symm.trans hm'
  | keyLost hp hm hk =>
    cases h' with
    | timedOut hp' => cases hp.symm.trans hp'
    | pollError hp' hbad =>
      cases hp.symm.trans hp'
      exact absurd rfl hbad
    | messageLost _ hm' => cases hm.symm.trans hm'
    | keyLost hp' _ _ =>
      cases hp.symm.trans hp'
      exact ⟨rfl, rfl⟩
    | done _ _ hk' => cases hk.symm.trans hk'
  | done hp hm hk =>
    cases h' with
    | timedOut hp' => cases hp.symm.trans hp'
    | pollError hp' hbad =>
      cases hp.symm.trans hp'
      exact absurd rfl hbad
    | messageLost _ hm' => cases hm.symm.trans hm'
    | keyLost _ _ hk' => cases hk.symm.trans hk'
    | done hp' _ _ =>
      cases hp.symm.trans hp'
      exact ⟨rfl, rfl⟩

theorem ends_pollRecord_iff {rk : Handle} {r : Except Exit Bool} :
    Ends (pollRecord a rk) w r w' ↔ PollExit a rk w r w' := by
  constructor
  · exact ends_pollRecord
  · intro h
    exact Ends.of_only fun r' t ht => (ends_pollRecord ht).unique h

theorem Decoded.agree {n : Nat} {q : Nat → Bytes} (hp : Decoded a paParams n p)
    (hq : Decoded a paParams n q) {i : Nat} (hi : i < n) : q i = p i :=
  Except.ok.inj ((hq i hi).symm.trans (hp i hi))

theorem consumeSettingsOf_congr {q : Nat → Bytes} (h : ∀ i < 5, q i = p i) :
    consumeSettingsOf q = consumeSettingsOf p := by
  unfold consumeSettingsOf
  rw [h 0 (by omega), h 2 (by omega), h 3 (by omega), h 4 (by omega)]

theorem produceSettingsOf_congr {q : Nat → Bytes} (h : ∀ i < 6, q i = p i) :
    produceSettingsOf q = produceSettingsOf p := by
  unfold produceSettingsOf
  rw [h 0 (by omega), h 2 (by omega), h 3 (by omega)]

theorem enqueueEvents_congr {q : Nat → Bytes} {n : Handle} (h : ∀ i < 6, q i = p i) :
    enqueueEvents a q n = enqueueEvents a p n := by
  unfold enqueueEvents
  rw [produceSettingsOf_congr h, h 1 (by omega), h 4 (by omega), h 5 (by omega)]

theorem consume_caught {r : Except Exit Bool} (h : Ends (consumeBody a paParams) w r w') :
    Ends (consume a paParams) w (caught r) w' := by
  apply Ends.of_only
  intro r' t h'
  obtain ⟨r₀, hbody, rfl⟩ := ends_consume h'
  obtain ⟨rfl, rfl⟩ := hbody.unique h
  exact ⟨rfl, rfl⟩

theorem consumeBody_broken {k : Nat} {e : Exit} (hk : k < 5) (hdec : Decoded a paParams k p)
    (herr : paramText a paParams k = .error e) :
    Ends (consumeBody a paParams) w (.error e) (w.cleared.after 0 (reads (k + 1))) := by
  have hstop := decodeParams_broken hk hdec herr w.cleared
  simp only [consumeBody, ends_setMessage_bind, ends_setKey_bind]
  exact ends_bind.mpr (Or.inr ⟨e, hstop, rfl⟩)

/-- The rest of the body, with the texts that have been decoded. -/
theorem consumeBody_decoded {r : Except Exit Bool} (hdec : Decoded a paParams 5 p) :
    Ends (consumeBody a paParams) w r w' ↔ Ends (do
      let (_, rk) ← openClient a .consumer (consumeSettingsOf p)
        "error Failed to create new consumer"
      subscribeTopic a rk (p 1)
      pollRecord a rk) (w.cleared.after 0 (reads 5)) r w' := by
  obtain ⟨q, hq, hagree⟩ := decodeParams_decoded hdec w.cleared
  rw [← consumeSettingsOf_congr hagree, ← hagree 1 (by omega)]
  simp only [consumeBody, ends_setMessage_bind, ends_setKey_bind]
  exact ends_bind_of_ok hq

theorem consumeBody_created {r : Except Exit Bool} (hdec : Decoded a paParams 5 p)
    (hacc : Accepted a (consumeSettingsOf p)) (hnew : a.new = true) :
    Ends (consumeBody a paParams) w r w' ↔ Ends (do
      subscribeTopic a (w.next + 1) (p 1)
      pollRecord a (w.next + 1))
      (w.cleared.after 2 (reads 5 ++ openEvents a .consumer w.next (consumeSettingsOf p))) r w' := by
  have hopen := openClient_created .consumer "error Failed to create new consumer" hnew hacc
    (w.cleared.after 0 (reads 5))
  rw [consumeBody_decoded hdec, ends_bind_of_ok hopen, World.after_after]
  rfl

theorem consumeBody_subscribed {r : Except Exit Bool} (hsub : Subscribed a paParams p) :
    Ends (consumeBody a paParams) w r w' ↔ PollExit a (w.next + 1)
      (w.cleared.after 3 (subscribedEvents a p w.next)) r w' := by
  have hset := subscribeTopic_subscribed (w.next + 1) (p 1) hsub.subscribed
    (w.cleared.after 2 (reads 5 ++ openEvents a .consumer w.next (consumeSettingsOf p)))
  rw [consumeBody_created hsub.decoded hsub.accepted hsub.created, ends_bind_of_ok hset,
    World.after_after, ends_pollRecord_iff]
  rfl

theorem ConsumeExit.ends {r : Except Exit Bool} (h : ConsumeExit a paParams w r w') :
    Ends (consume a paParams) w r w' := by
  cases h with
  | unreadable hk hdec herr => exact consume_caught (consumeBody_broken hk hdec herr)
  | undecodable hk hdec herr hne =>
    have hbody := consume_caught (consumeBody_broken (w := w) hk hdec herr)
    rwa [caught_error hne] at hbody
  | refused hdec hl hacc hbad =>
    have hstop := openClient_refused .consumer "error Failed to create new consumer" hl hacc hbad
      (w.cleared.after 0 (reads 5))
    have hbody := (consumeBody_decoded hdec).mpr (ends_bind.mpr (Or.inr ⟨_, hstop, rfl⟩))
    simpa [caught] using consume_caught hbody
  | notCreated hdec hacc hno =>
    have hstop := openClient_notCreated .consumer "error Failed to create new consumer" hno hacc
      (w.cleared.after 0 (reads 5))
    have hbody := (consumeBody_decoded hdec).mpr (ends_bind.mpr (Or.inr ⟨_, hstop, rfl⟩))
    simpa [caught] using consume_caught hbody
  | @notSubscribed p hdec hacc hnew hbad =>
    have hstop := subscribeTopic_failed (w.next + 1) (p 1) hbad
      (w.cleared.after 2 (reads 5 ++ openEvents a .consumer w.next (consumeSettingsOf p)))
    have hbody := (consumeBody_created hdec hacc hnew).mpr (ends_bind.mpr (Or.inr ⟨_, hstop, rfl⟩))
    simpa [caught, subscribedEvents] using consume_caught hbody
  | timedOut hsub hp =>
    have hbody := (consumeBody_subscribed (w := w) hsub).mpr (PollExit.timedOut hp)
    simpa [caught] using consume_caught hbody
  | pollError hsub hp hbad =>
    have hbody := (consumeBody_subscribed (w := w) hsub).mpr (PollExit.pollError hp hbad)
    simpa [caught] using consume_caught hbody
  | messageLost hsub hp hm =>
    have hbody := (consumeBody_subscribed (w := w) hsub).mpr (PollExit.messageLost hp hm)
    simpa [caught] using consume_caught hbody
  | keyLost hsub hp hm hk =>
    have hbody := (consumeBody_subscribed (w := w) hsub).mpr (PollExit.keyLost hp hm hk)
    simpa [caught] using consume_caught hbody
  | done hsub hp hm hk =>
    have hbody := (consumeBody_subscribed (w := w) hsub).mpr (PollExit.done hp hm hk)
    simpa [caught] using consume_caught hbody

theorem produce_reported {r : Except Exit String} (h : Ends (produceBody a paParams) w r w') :
    Ends (produce a paParams) w (reported r) w' := by
  apply Ends.of_only
  intro r' t h'
  obtain ⟨r₀, hbody, rfl⟩ := ends_produce h'
  obtain ⟨rfl, rfl⟩ := hbody.unique h
  exact ⟨rfl, rfl⟩

theorem produceBody_broken {k : Nat} {e : Exit} (hk : k < 6) (hdec : Decoded a paParams k p)
    (herr : paramText a paParams k = .error e) :
    Ends (produceBody a paParams) w (.error e) (w.after 0 (reads (k + 1))) := by
  have hstop := decodeParams_broken hk hdec herr w
  unfold produceBody
  exact ends_bind.mpr (Or.inr ⟨e, hstop, rfl⟩)

/-- The body ends where no client can be made. -/
theorem produceBody_notOpened {e : Exit} {t : World} (hdec : Decoded a paParams 6 p)
    (hstop : Ends (openClient a .producer (produceSettingsOf p)
      "error Failed to create new producer") (w.after 0 (reads 6)) (.error e) t) :
    Ends (produceBody a paParams) w (.error e) t := by
  obtain ⟨q, hq, hagree⟩ := decodeParams_decoded hdec w
  rw [← produceSettingsOf_congr hagree] at hstop
  unfold produceBody
  exact (ends_bind_of_ok hq).mpr (ends_bind.mpr (Or.inr ⟨e, hstop, rfl⟩))

theorem ProduceExit.ends {r : Except Exit String} (htr : w.trace = [])
    (h : ProduceExit a paParams w r w') : Ends (produce a paParams) w r w' := by
  cases h with
  | unreadable hk hdec herr => exact produce_reported (produceBody_broken hk hdec herr)
  | undecodable hk hdec herr hwhat =>
    have hbody := produce_reported (produceBody_broken (w := w) hk hdec herr)
    simpa [reported, hwhat] using hbody
  | refused hdec hl hacc hbad =>
    have hstop := openClient_refused .producer "error Failed to create new producer" hl hacc hbad
      (w.after 0 (reads 6))
    simpa [reported, Exit.what] using produce_reported (produceBody_notOpened hdec hstop)
  | notCreated hdec hacc hno =>
    have hstop := openClient_notCreated .producer "error Failed to create new producer" hno hacc
      (w.after 0 (reads 6))
    simpa [reported, Exit.what] using produce_reported (produceBody_notOpened hdec hstop)
  | @notEnqueued p hopen hbad =>
    apply Ends.of_only
    intro r t h
    rcases (produce_exit htr h).cases with ⟨_, _, henq, _⟩ | ⟨q, hq, _, hr, ht⟩ | ⟨hnot, _⟩
    · exact absurd henq hbad
    · rw [enqueueEvents_congr fun i hi => hopen.decoded.agree hq.decoded hi] at ht
      exact ⟨hr, ht⟩
    · exact absurd hopen (hnot p)
  | @persisted p hopen henq =>
    apply Ends.of_only
    intro r t h
    rcases (produce_exit htr h).cases with ⟨q, hq, _, hr, ht⟩ | ⟨_, _, hbad, _⟩ | ⟨hnot, _⟩
    · rw [enqueueEvents_congr fun i hi => hopen.decoded.agree hq.decoded hi] at ht
      exact ⟨hr, ht⟩
    · exact absurd henq hbad
    · exact absurd hopen (hnot p)

/-- The body returns one text only. -/
theorem produceBody_ok {text : String} (htr : w.trace = [])
    (h : Ends (produceBody a paParams) w (.ok text) w') : text = "Persisted" := by
  unfold produceBody at h
  rcases ends_bind.mp h with ⟨p, t, hp, h⟩ | ⟨e, _, herr⟩
  · rcases ends_decodeParams hp with ⟨p', hok, _, rfl⟩ | ⟨_, _, _, _, _, _, herr, _⟩
    · cases hok
      rcases ends_bind.mp h with ⟨⟨conf, rk⟩, u, ho, h⟩ | ⟨e, _, herr⟩
      · rcases ends_openClient ho with ⟨_, _, hok, rfl⟩ | ⟨_, _, _, _, _, _, herr, _⟩ |
          ⟨_, _, herr, _⟩
        · cases hok
          simp only [World.after_after, World.after_next] at h
          rcases ends_enqueue htr h with ⟨_, hok, _⟩ | ⟨_, herr, _⟩
          · exact Except.ok.inj hok
          · cases herr
        · cases herr
        · cases herr
      · cases herr
    · cases herr
  · cases herr

/-- The strings on the way out that the C++ heap has room for, besides those of `Answers`. The
text "Persisted" fits into the string object itself. -/
structure Heap where
  /-- The version's, which `string_to_tVariant` is called with. -/
  version : Bool := true
  /-- The text of an exception that is thrown. -/
  thrown : Bool := true
  /-- What the handler of `produce` puts together. -/
  caught : Bool := true

/-- What an exception says in the end: one whose text there is no room for is a `bad_alloc`. -/
def Heap.what (heap : Heap) (what : String) : String :=
  if heap.thrown then what else "std::bad_alloc"

/-- `produce`, where the heap may fail on the way out. An exception that a handler throws is not
caught again. -/
def produceIn (heap : Heap) (a : Answers) (paParams : Nat → TVariant) : Call String :=
  tryStd (produceBody a paParams) fun what =>
    if heap.caught then return "Exception: " ++ heap.what what else throw .badAlloc

/-- `CallAsFunc`, where the heap may fail on the way out. -/
def callAsFuncIn (heap : Heap) (this : CKafka) (a : Answers) (lMethodNum : Int)
    (pvarRetValue : TVariant) (paParams : Nat → TVariant) (_lSizeArray : Int) :
    Call (Bool × TVariant) := do
  match Methods.ofLong lMethodNum with
  | some .eGetInfo =>
    if heap.version then
      let (_, val) ← stringToTVariant this a (ascii versionString)
        { pvarRetValue with vt := vtypePstr }
      return (true, val)
    else throw .badAlloc
  | some .eProduce =>
    let text ← produceIn heap a paParams
    let (_, val) ← stringToTVariant this a (ascii text) { pvarRetValue with vt := vtypePstr }
    return (true, val)
  | some .eConsume =>
    let result ← consume a paParams
    return (true, { pvarRetValue with vt := vtypeBool, bVal := result })
  | none => return (false, pvarRetValue)

/-- Where the heap has room there is no other `CallAsFunc`. -/
theorem callAsFuncIn_roomy (lMethodNum : Int) (pvar : TVariant) (lSizeArray : Int) :
    callAsFuncIn {} this a lMethodNum pvar paParams lSizeArray =
      callAsFunc this a lMethodNum pvar paParams lSizeArray := by
  have hproduce : produceIn {} a paParams = produce a paParams := rfl
  unfold callAsFuncIn callAsFunc
  rw [hproduce]
  rfl

variable {heap : Heap}

/-- Where `produce` can end, with what it returns and with all that it has done by then. -/
inductive ProduceLine (heap : Heap) (a : Answers) (paParams : Nat → TVariant) (w : World) :
    Except Exit String → World → Prop
  | unreadable {w' : World} : ProduceExit a paParams w (.error .fault) w' →
      ProduceLine heap a paParams w (.error .fault) w'
  | persisted {w' : World} : ProduceExit a paParams w (.ok "Persisted") w' →
      ProduceLine heap a paParams w (.ok "Persisted") w'
  | told {what w'} : ProduceExit a paParams w (.ok ("Exception: " ++ what)) w' →
      heap.caught = true →
      ProduceLine heap a paParams w (.ok ("Exception: " ++ heap.what what)) w'
  | escaped {what w'} : ProduceExit a paParams w (.ok ("Exception: " ++ what)) w' →
      heap.caught = false → ProduceLine heap a paParams w (.error .badAlloc) w'

theorem ends_produceIn {r : Except Exit String} (htr : w.trace = [])
    (h : Ends (produceIn heap a paParams) w r w') : ProduceLine heap a paParams w r w' := by
  rcases ends_tryStd h with ⟨text, hbody, rfl⟩ | ⟨e, what, t, hw, hbody, hcatch⟩ |
    ⟨e, hw, hbody, rfl⟩
  · have hexit := produceBody_exit htr hbody
    cases produceBody_ok htr hbody
    exact ProduceLine.persisted hexit
  · have hexit := produceBody_exit htr hbody
    simp only [reported, hw] at hexit
    cases hroom : heap.caught with
    | true =>
      simp only [hroom, if_true] at hcatch
      obtain ⟨rfl, rfl⟩ := ends_pure.mp hcatch
      exact ProduceLine.told hexit hroom
    | false =>
      simp only [hroom, Bool.false_eq_true, if_false] at hcatch
      obtain ⟨rfl, rfl⟩ := ends_throw.mp hcatch
      exact ProduceLine.escaped hexit hroom
  · have hexit := produceBody_exit htr hbody
    simp only [reported, hw] at hexit
    cases Exit.what_eq_none_iff.mp hw
    exact ProduceLine.unreadable hexit

/-- The body that an exit of `produce` comes from: it has thrown an exception of that text. -/
theorem ProduceExit.raised {what : String} (htr : w.trace = [])
    (h : ProduceExit a paParams w (.ok ("Exception: " ++ what)) w') :
    ∃ e, e.what = some what ∧ Ends (produceBody a paParams) w (.error e) w' := by
  obtain ⟨r₀, hbody, hr⟩ := ends_produce (h.ends htr)
  cases r₀ with
  | ok text =>
    cases produceBody_ok htr hbody
    exact absurd (Except.ok.inj hr) (exception_ne_persisted what)
  | error e =>
    cases hw : e.what with
    | none => simp [reported, hw] at hr
    | some what' =>
      simp only [reported, hw, Except.ok.injEq, String.append_right_inj] at hr
      exact ⟨e, by rw [hw, hr], hbody⟩

theorem tryStd_ok {α : Type} {x : Call α} {handler : String → Call α} {v : α}
    (h : Ends x w (.ok v) w') : Ends (tryStd x handler) w (.ok v) w' :=
  ends_tryCatch.mpr (Or.inl ⟨v, h, rfl⟩)

theorem tryStd_caught {α : Type} {x : Call α} {handler : String → Call α} {e : Exit}
    {what : String} {t : World} {r : Except Exit α} (hw : e.what = some what)
    (h : Ends x w (.error e) t) (hcatch : Ends (handler what) t r w') :
    Ends (tryStd x handler) w r w' := by
  refine ends_tryCatch.mpr (Or.inr ⟨e, t, h, ?_⟩)
  simpa only [hw] using hcatch

theorem tryStd_fault {α : Type} {x : Call α} {handler : String → Call α}
    (h : Ends x w (.error .fault) w') : Ends (tryStd x handler) w (.error .fault) w' :=
  ends_tryCatch.mpr (Or.inr ⟨.fault, w', h, ends_throw.mpr ⟨rfl, rfl⟩⟩)

theorem ProduceLine.ends {r : Except Exit String} (htr : w.trace = [])
    (h : ProduceLine heap a paParams w r w') : Ends (produceIn heap a paParams) w r w' := by
  cases h with
  | unreadable hexit =>
    obtain ⟨r₀, hbody, hr⟩ := ends_produce (hexit.ends htr)
    cases r₀ with
    | ok text => cases hr
    | error e =>
      cases hw : e.what with
      | some what => simp [reported, hw] at hr
      | none =>
        cases Exit.what_eq_none_iff.mp hw
        exact tryStd_fault hbody
  | persisted hexit =>
    obtain ⟨r₀, hbody, hr⟩ := ends_produce (hexit.ends htr)
    cases r₀ with
    | ok text =>
      rw [hr]
      exact tryStd_ok hbody
    | error e =>
      cases hw : e.what with
      | none => simp [reported, hw] at hr
      | some what =>
        simp only [reported, hw, Except.ok.injEq] at hr
        exact absurd hr.symm (exception_ne_persisted what)
  | told hexit hroom =>
    obtain ⟨e, hw, hbody⟩ := hexit.raised htr
    refine tryStd_caught hw hbody ?_
    rw [if_pos hroom]
    exact ends_pure.mpr ⟨rfl, rfl⟩
  | escaped hexit hroom =>
    obtain ⟨e, hw, hbody⟩ := hexit.raised htr
    refine tryStd_caught hw hbody ?_
    rw [if_neg (by simp [hroom])]
    exact ends_throw.mpr ⟨rfl, rfl⟩

/-- The ways in which an answer is handed to the host. -/
inductive Answering (this : CKafka) (a : Answers) (str : Bytes) (pvar : TVariant) (w : World) :
    Except Exit (Bool × TVariant) → World → Prop
  | answered : this.mIMemory = true → a.alloc = true →
      Answering this a str pvar w
        (.ok (true, { pvar with
          vt := vtypePstr
          pstrVal := some (returnedCells str)
          strLen := UInt32.ofNat str.length }))
        (w.after 0 [.allocMemory (str.length + 1) true])
  | unallocated : this.mIMemory = true → a.alloc = false →
      Answering this a str pvar w (.error .fault)
        (w.after 0 [.allocMemory (str.length + 1) false, .wildWrite])
  | unmanaged : this.mIMemory = false → Answering this a str pvar w (.error .fault) w

theorem answering_iff {str : Bytes} {pvar : TVariant} {r : Except Exit (Bool × TVariant)} :
    Ends (stringToTVariant this a str { pvar with vt := vtypePstr } >>= fun p =>
      pure (true, p.2)) w r w' ↔ Answering this a str pvar w r w' := by
  have hends : ∀ r t, Ends (stringToTVariant this a str { pvar with vt := vtypePstr } >>= fun p =>
      pure (true, p.2)) w r t → Answering this a str pvar w r t := by
    intro r t h
    rcases ends_stringToTVariant (ends_returned h) with ⟨hset, hroom, rfl, rfl⟩ |
      ⟨hset, hroom, rfl, rfl⟩ | ⟨hset, rfl, rfl⟩
    · exact Answering.answered hset hroom
    · exact Answering.unallocated hset hroom
    · exact Answering.unmanaged hset
  constructor
  · exact hends r w'
  · intro h
    apply Ends.of_only
    intro r' t h'
    have hline := hends r' t h'
    cases h with
    | answered hset hroom =>
      cases hline with
      | answered _ _ => exact ⟨rfl, rfl⟩
      | unallocated _ hno => simp [hroom] at hno
      | unmanaged hno => simp [hset] at hno
    | unallocated hset hno =>
      cases hline with
      | answered _ hroom => simp [hno] at hroom
      | unallocated _ _ => exact ⟨rfl, rfl⟩
      | unmanaged hnull => simp [hset] at hnull
    | unmanaged hno =>
      cases hline with
      | answered hset _ => simp [hno] at hset
      | unallocated hset _ => simp [hno] at hset
      | unmanaged _ => exact ⟨rfl, rfl⟩

/-- Where `CallAsFunc` can end, with all that it has done by then. -/
inductive CallLine (heap : Heap) (this : CKafka) (a : Answers) (lMethodNum : Int)
    (pvar : TVariant) (paParams : Nat → TVariant) (w : World) :
    Except Exit (Bool × TVariant) → World → Prop
  | unknown : Methods.ofLong lMethodNum = none →
      CallLine heap this a lMethodNum pvar paParams w (.ok (false, pvar)) w
  | version {r w'} : Methods.ofLong lMethodNum = some .eGetInfo → heap.version = true →
      Answering this a (ascii versionString) pvar w r w' →
      CallLine heap this a lMethodNum pvar paParams w r w'
  | versionLost : Methods.ofLong lMethodNum = some .eGetInfo → heap.version = false →
      CallLine heap this a lMethodNum pvar paParams w (.error .badAlloc) w
  | sent {text t r w'} : Methods.ofLong lMethodNum = some .eProduce →
      ProduceLine heap a paParams w (.ok text) t → Answering this a (ascii text) pvar t r w' →
      CallLine heap this a lMethodNum pvar paParams w r w'
  | notSent {e w'} : Methods.ofLong lMethodNum = some .eProduce →
      ProduceLine heap a paParams w (.error e) w' →
      CallLine heap this a lMethodNum pvar paParams w (.error e) w'
  | received {b w'} : Methods.ofLong lMethodNum = some .eConsume →
      ConsumeExit a paParams w (.ok b) w' →
      CallLine heap this a lMethodNum pvar paParams w
        (.ok (true, { pvar with vt := vtypeBool, bVal := b })) w'
  | notReceived {e w'} : Methods.ofLong lMethodNum = some .eConsume →
      ConsumeExit a paParams w (.error e) w' →
      CallLine heap this a lMethodNum pvar paParams w (.error e) w'

theorem ends_callAsFuncIn {lMethodNum lSizeArray : Int} {pvar : TVariant}
    {r : Except Exit (Bool × TVariant)} (htr : w.trace = [])
    (h : Ends (callAsFuncIn heap this a lMethodNum pvar paParams lSizeArray) w r w') :
    CallLine heap this a lMethodNum pvar paParams w r w' := by
  unfold callAsFuncIn at h
  cases hm : Methods.ofLong lMethodNum with
  | none =>
    simp only [hm] at h
    obtain ⟨rfl, rfl⟩ := ends_pure.mp h
    exact CallLine.unknown hm
  | some m =>
    cases m with
    | eGetInfo =>
      simp only [hm] at h
      cases hroom : heap.version with
      | true =>
        simp only [hroom, if_true] at h
        exact CallLine.version hm hroom (answering_iff.mp h)
      | false =>
        simp only [hroom, Bool.false_eq_true, if_false] at h
        obtain ⟨rfl, rfl⟩ := ends_throw.mp h
        exact CallLine.versionLost hm hroom
    | eProduce =>
      simp only [hm] at h
      rcases ends_bind.mp h with ⟨text, t, hprod, h⟩ | ⟨e, hprod, rfl⟩
      · exact CallLine.sent hm (ends_produceIn htr hprod) (answering_iff.mp h)
      · exact CallLine.notSent hm (ends_produceIn htr hprod)
    | eConsume =>
      simp only [hm] at h
      rcases ends_bind.mp h with ⟨b, t, hcons, h⟩ | ⟨e, hcons, rfl⟩
      · obtain ⟨rfl, rfl⟩ := ends_pure.mp h
        exact CallLine.received hm (consume_exit hcons)
      · exact CallLine.notReceived hm (consume_exit hcons)

theorem CallLine.ends {lMethodNum : Int} {pvar : TVariant} {r : Except Exit (Bool × TVariant)}
    (lSizeArray : Int) (htr : w.trace = [])
    (h : CallLine heap this a lMethodNum pvar paParams w r w') :
    Ends (callAsFuncIn heap this a lMethodNum pvar paParams lSizeArray) w r w' := by
  unfold callAsFuncIn
  cases h with
  | unknown hm =>
    rw [hm]
    exact ends_pure.mpr ⟨rfl, rfl⟩
  | version hm hroom hstr =>
    simp only [hm, hroom, if_true]
    exact answering_iff.mpr hstr
  | versionLost hm hroom =>
    simp only [hm, hroom, Bool.false_eq_true, if_false]
    exact ends_throw.mpr ⟨rfl, rfl⟩
  | sent hm hprod hstr =>
    rw [hm]
    exact (ends_bind_of_ok (hprod.ends htr)).mpr (answering_iff.mpr hstr)
  | notSent hm hprod =>
    rw [hm]
    exact ends_bind.mpr (Or.inr ⟨_, hprod.ends htr, rfl⟩)
  | received hm hcons =>
    rw [hm]
    exact (ends_bind_of_ok hcons.ends).mpr (ends_pure.mpr ⟨rfl, rfl⟩)
  | notReceived hm hcons =>
    rw [hm]
    exact ends_bind.mpr (Or.inr ⟨_, hcons.ends, rfl⟩)

/-- The tables of exits leave nothing out and put nothing in: a call of a method ends with a
result, a state of the globals and a sequence of calls exactly when a line of them says so. -/
theorem callAsFunc_exits (heap : Heap) (this : CKafka) (a : Answers) (lMethodNum : Int)
    (pvar : TVariant) (paParams : Nat → TVariant) (lSizeArray : Int) (s : Process)
    (r : Except Exit (Bool × TVariant)) (w' : World) :
    (Ends (callAsFuncIn heap this a lMethodNum pvar paParams lSizeArray) s.world r w' ↔
      CallLine heap this a lMethodNum pvar paParams s.world r w') ∧
    callAsFuncIn {} this a lMethodNum pvar paParams lSizeArray =
      callAsFunc this a lMethodNum pvar paParams lSizeArray :=
  ⟨⟨ends_callAsFuncIn rfl, CallLine.ends lSizeArray rfl⟩,
    callAsFuncIn_roomy lMethodNum pvar lSizeArray⟩

end KafkaAddIn
