import Nmdb.Schedules

/-! Passive mode: a standby server gets the messages of the active one, acts upon them and
stays silent, until a signal makes it active. -/
namespace Nmdb

variable {δ : Type}

/-- A server with its passive setting, and the replies that went out: the reply functions of
every transport return before they send while the setting is on. -/
structure Site (δ : Type) where
  system : System δ
  passive : Bool
  sent : List (ReqInfo Nat × Reply)

inductive SiteEvent where
  | event (ev : Event)
  | toggle

def passiveToActiveSighandler (s : Site δ) : Site δ := { s with passive := !s.passive }

def Site.step (db : DbConn δ) (s : Site δ) : SiteEvent → Except Fault (Site δ)
  | .event ev => do
    let t ← s.system.step db ev
    let out := if s.passive then [] else t.given s.system.server.replies.length
    return { s with system := t, sent := s.sent ++ out }
  | .toggle => .ok (passiveToActiveSighandler s)

section

variable {db : DbConn δ} {s t : Site δ} {evs : List Event}

theorem Site.step_event {ev : Event} {v : System δ} (moved : s.system.step db ev = .ok v) :
    s.step db (.event ev) = .ok { s with
      system := v, sent := s.sent ++ if s.passive then [] else v.given s.system.server.replies.length } := by
  simp only [Site.step, moved, ok_bind, pure_ok]

/-- A site runs as its server does. -/
theorem Site.run_system {v : System δ} (ran : Runs.run (System.step db) s.system evs = .ok v) :
    ∃ t, Runs.run (Site.step db) s (evs.map .event) = .ok t ∧ t.system = v := by
  induction evs generalizing s with
  | nil =>
    cases ran
    exact ⟨s, rfl, rfl⟩
  | cons ev rest ih =>
    obtain ⟨u, moved, ran⟩ := Runs.run_cons_inv ran
    rw [List.map_cons, Runs.run_cons_ok (Site.step_event moved)]
    exact ih ran

/-- While the setting does not change, a passive server sends nothing and an active one
whatever it replies. -/
theorem Site.run_unchanged (ran : Runs.run (Site.step db) s (evs.map .event) = .ok t) :
    Runs.run (System.step db) s.system evs = .ok t.system ∧ t.passive = s.passive ∧
      t.sent = s.sent ++ if s.passive then [] else t.system.given s.system.server.replies.length := by
  induction evs generalizing s with
  | nil =>
    cases ran
    simp [System.given, Runs.run]
  | cons ev rest ih =>
    obtain ⟨u, taken, ran⟩ := Runs.run_cons_inv ran
    obtain ⟨v, moved, same⟩ := bind_eq_ok.mp taken
    cases same
    obtain ⟨later, passive, sent⟩ := ih ran
    have whole : Runs.run (System.step db) s.system (ev :: rest) = .ok t.system :=
      (Runs.run_cons_ok moved).trans later
    refine ⟨whole, passive, ?_⟩
    have here : v.server.replies = s.system.server.replies ++ v.given s.system.server.replies.length :=
      run_given ((Runs.run_cons_ok moved).trans rfl : Runs.run (System.step db) s.system [ev] = .ok v)
    have chain : v.given s.system.server.replies.length ++ t.system.given v.server.replies.length =
        t.system.given s.system.server.replies.length := by
      apply List.append_cancel_left
      rw [← List.append_assoc, ← here, ← run_given whole]
      exact (run_given later).symm
    rw [sent]
    cases s.passive with
    | true => simp
    | false =>
      simp only [Bool.false_eq_true, if_false, List.append_assoc]
      rw [← chain]

end

theorem inMode_front {as bs : List Event} (front : messages as <+: messages bs)
    (inMode : ∀ ev ∈ bs, ev.InMode) : ∀ ev ∈ as, ev.InMode :=
  inMode_messages.mpr fun x member => inMode_messages.mp inMode x (front.subset member)

/-- A standby that heard what the active server heard, and was switched on when that one was
gone, has sent nothing before and leaves out no reply afterwards; and all replies, of the old
server and of the new one, are those of one map of all requests. -/
theorem standby_takes_over {db : DbConn δ} {view : δ → KV} (backend : MapBackend db view)
    (accepts : ∀ d k v, (db.set d k v).1 = true) {cdOk tableOk : Bool} {numobjs flags : Nat} {cd : Cache}
    (created : cacheCreate cdOk tableOk numobjs flags = some cd) (settings : Settings) {d : δ}
    (bounded : ∀ k v, view d k = some v → v.length ≤ 65536) {old before after : List Event}
    (heard : messages old <+: messages (before ++ after)) (inMode : ∀ ev ∈ before ++ after, ev.InMode)
    (defined : NumbersDefined settings.readOnly (view d) (requests 0 (before ++ after))) {a b c : Site δ}
    (active : Runs.run (Site.step db) ⟨System.start cd settings d, false, []⟩ (old.map .event) = .ok a)
    (standby : Runs.run (Site.step db) ⟨System.start cd settings d, true, []⟩ (before.map .event) = .ok b)
    (switched : Runs.run (Site.step db) b (.toggle :: after.map .event) = .ok c) :
    b.sent = [] ∧ c.sent = c.system.given b.system.server.replies.length ∧
    (∀ k v, c.system.server.cache.lookup k = some v → drained (view c.system.db) c.system.pending k = some v) ∧
    drained (view c.system.db) c.system.pending =
      (atomicRun settings.readOnly (view d) (requests 0 (before ++ after))).1 ∧
    ∀ req reply, (req, reply) ∈ a.sent ++ c.sent → req.cacheOnly = false →
      ∃ x, (req, x) ∈ (atomicRun settings.readOnly (view d) (requests 0 (before ++ after))).2 ∧
        reply.answer = some x := by
  obtain ⟨ranA, _, sentA⟩ := Site.run_unchanged active
  obtain ⟨ranB, passiveB, sentB⟩ := Site.run_unchanged standby
  obtain ⟨u, toggled, after_switch⟩ := Runs.run_cons_inv switched
  cases toggled
  obtain ⟨ranC, _, sentC⟩ := Site.run_unchanged after_switch
  simp only [passiveToActiveSighandler, passiveB, Bool.not_true, Bool.false_eq_true, if_false] at ranC sentC
  have silent : b.sent = [] := by
    rw [sentB]
    rfl
  rw [silent, List.nil_append] at sentC
  have whole : Runs.run (System.step db) (System.start cd settings d) (before ++ after) = .ok c.system := by
    rw [Runs.run_append, ranB]
    exact ranC
  have initial := System.start_linear created settings bounded
  have newServer := (initial.run backend accepts (before ++ after) inMode defined).2 c.system whole
  -- the old server has heard the first of these requests
  obtain ⟨more, requests_split⟩ := requests_prefix 0 heard
  have oldDefined : NumbersDefined settings.readOnly (view d) (requests 0 old) := by
    rw [← requests_split] at defined
    exact (numbersDefined_append.mp defined).1
  have oldServer := (initial.run backend accepts old (inMode_front heard inMode) oldDefined).2 a.system ranA
  refine ⟨silent, sentC, newServer.behind.coherent, newServer.map, fun req reply member toDb => ?_⟩
  rcases List.mem_append.mp member with fromOld | fromNew
  · rw [sentA] at fromOld
    obtain ⟨x, given, same⟩ := oldServer.replied req reply fromOld toDb
    refine ⟨x, ?_, same⟩
    rw [← requests_split, atomicRun_append]
    exact List.mem_append_left _ given
  · rw [sentC] at fromNew
    exact newServer.replied req reply (List.mem_of_mem_drop fromNew) toDb

/-- The old server answers nothing of the SET it heard; the standby executes it, and the INCR. -/
theorem standby_takes_over_increment :
    ∃ b c, Runs.run (Site.step mapDb) ⟨System.start emptyCache ⟨false⟩ fun _ => none, true, []⟩
        ((setAndIncrement.take 1).map .event) = .ok b ∧
      Runs.run (Site.step mapDb) b (.toggle :: (setAndIncrement.drop 1).map .event) = .ok c ∧ b.sent = [] ∧
      ∀ req reply, (req, reply) ∈ c.sent → req.cacheOnly = false →
        ∃ x, (req, x) ∈ (atomicRun false (fun _ => none) (requests 0 setAndIncrement)).2 ∧
          reply.answer = some x := by
  have whole : setAndIncrement.take 1 ++ setAndIncrement.drop 1 = setAndIncrement := List.take_append_drop ..
  have inMode : ∀ ev ∈ setAndIncrement, ev.InMode := setAndIncrement_inMode
  have defined : NumbersDefined false (fun _ => none) (requests 0 setAndIncrement) := setAndIncrement_defined
  have initial : (System.start emptyCache ⟨false⟩ fun _ => none).Linear id (fun _ => none) [] :=
    System.start_linear emptyCache_created ⟨false⟩ fun k v held => by contradiction
  obtain ⟨s, ran⟩ := (initial.run mapDb_backend (fun _ _ _ => rfl) setAndIncrement inMode defined).1 (by decide)
  rw [← whole, Runs.run_append] at ran
  split at ran
  case h_2 => contradiction
  case h_1 v first =>
    obtain ⟨a, active, _⟩ := Site.run_system (s := ⟨_, false, []⟩) first
    obtain ⟨b, standby, rfl⟩ := Site.run_system (s := ⟨_, true, []⟩) first
    obtain ⟨c, later, _⟩ := Site.run_system (s := passiveToActiveSighandler b) ran
    have switched : Runs.run (Site.step mapDb) b (.toggle :: (setAndIncrement.drop 1).map .event) = .ok c :=
      (Runs.run_cons_ok rfl).trans later
    obtain ⟨silent, _, _, _, answers⟩ := standby_takes_over mapDb_backend (fun _ _ _ => rfl)
      emptyCache_created ⟨false⟩ (fun k v held => by contradiction)
      (by rw [whole]; exact ⟨_, rfl⟩) (whole.symm ▸ inMode) (whole.symm ▸ defined) active standby switched
    refine ⟨b, c, standby, switched, silent, fun req reply sent toDb => ?_⟩
    rw [whole] at answers
    exact answers req reply (List.mem_append_right _ sent) toDb

end Nmdb
