import Nmdb.Dispatch
import Nmdb.DbLoop
import Nmdb.Lib.Runs

/-! What the server does with a message depends neither on who sent it nor on what has been
queued and replied before, and but for STATS not on the counters either. -/
namespace Nmdb

open Runs

variable {δ ν μ : Type}

def ReqInfo.rename (f : ν → μ) (req : ReqInfo ν) : ReqInfo μ := ⟨f req.net, req.id, req.cmd, req.flags⟩

def QueueEntry.rename (f : ν → μ) (e : QueueEntry ν) : QueueEntry μ :=
  ⟨e.operation, e.req.rename f, e.key, e.val, e.newval⟩

@[simp] theorem ReqInfo.rename_cacheOnly (f : ν → μ) (req : ReqInfo ν) :
    (req.rename f).cacheOnly = req.cacheOnly := rfl

@[simp] theorem ReqInfo.rename_sync (f : ν → μ) (req : ReqInfo ν) : (req.rename f).sync = req.sync := rfl

/-- The database does not see who asked either. -/
theorem processOp_rename (f : ν → μ) (db : DbConn δ) (ok : Bool) (d : δ) (e : QueueEntry ν) :
    processOp db ok d (e.rename f) = processOp db ok d e := rfl

/-- The same server for clients of other names, with entries and replies in front of its own
and other counters. -/
structure Server.Alike (R : Stats → Stats → Prop) (f : ν → μ) (q : List (QueueEntry μ))
    (rs : List (ReqInfo μ × Reply)) (s : Server ν) (t : Server μ) : Prop where
  cache : t.cache = s.cache
  settings : t.settings = s.settings
  stats : R s.stats t.stats
  queue : t.queue = q ++ s.queue.map (QueueEntry.rename f)
  replies : t.replies = rs ++ s.replies.map (Prod.map (ReqInfo.rename f) id)

/-- Counters stay related however both are counted up. -/
def CountAlike (R : Stats → Stats → Prop) : Prop := ∀ (f : Stats → Stats) (a b : Stats), R a b → R (f a) (f b)

section

variable {R : Stats → Stats → Prop} {f : ν → μ} {q : List (QueueEntry μ)} {rs : List (ReqInfo μ × Reply)}
  {s : Server ν} {t : Server μ} {m : Mallocs} {req : ReqInfo ν}

namespace Server.Alike

theorem reply (alike : Alike R f q rs s t) (r : Reply) :
    Alike R f q rs (s.reply req r) (t.reply (req.rename f) r) where
  cache := alike.cache
  settings := alike.settings
  stats := alike.stats
  queue := alike.queue
  replies := by
    simp only [Server.reply, alike.replies, List.map_append, List.append_assoc]
    rfl

theorem count (counts : CountAlike R) (alike : Alike R f q rs s t) (g : Stats → Stats) :
    Alike R f q rs (s.count g) (t.count g) :=
  { alike with stats := counts g _ _ alike.stats }

theorem put (alike : Alike R f q rs s t) (cd : Cache) :
    Alike R f q rs { s with cache := cd } { t with cache := cd } :=
  { alike with cache := rfl }

theorem broken (counts : CountAlike R) (alike : Alike R f q rs s t) :
    Alike R f q rs (s.broken req) (t.broken (req.rename f)) :=
  (alike.count counts _).reply _

theorem fillCacheFlag (counts : CountAlike R) (alike : Alike R f q rs s t) (req : ReqInfo ν)
    (cache db : Stats → Stats) :
    Alike R f q rs (s.fillCacheFlag req cache db) (t.fillCacheFlag (req.rename f) cache db) :=
  alike.count counts _

theorem replyLong (alike : Alike R f q rs s t) (r : Rep) (val : Ptr) (vsize : Int) :
    Agree (Alike R f q rs) (s.replyLong req r val vsize) (t.replyLong (req.rename f) r val vsize) := by
  unfold Server.replyLong
  simp only [pure_ok]
  split
  · exact alike.reply _
  · apply Agree.same
    intro b
    exact alike.reply _

theorem queueing (alike : Alike R f q rs s t) (operation : Req) (key val newval : Option Bytes)
    {k : Bool × Server ν → Except Fault (Server ν)} {l : Bool × Server μ → Except Fault (Server μ)}
    (rest : ∀ rv s t, Alike R f q rs s t → Agree (Alike R f q rs) (k (rv, s)) (l (rv, t))) :
    Agree (Alike R f q rs) (putInQueueLong m s req operation key val newval >>= k)
      (putInQueueLong m t (req.rename f) operation key val newval >>= l) := by
  unfold putInQueueLong
  simp only [pure_ok]
  unfold makeQueueLongEntry
  rcases m.entry with _ | _
  · exact rest _ _ _ alike
  · simp only [Bool.not_true, Bool.false_eq_true, if_false]
    split
    · rfl
    · split
      · exact rest _ _ _ alike
      · apply rest
        refine { alike with queue := ?_ }
        simp only [alike.queue, List.map_append, List.append_assoc]
        rfl

end Server.Alike

open Server

theorem serveGet_alike (counts : CountAlike R) (alike : Alike R f q rs s t) (key : Bytes) :
    Agree (Alike R f q rs) (serveGet m s req key) (serveGet m t (req.rename f) key) := by
  have filled := alike.fillCacheFlag counts req (fun st => { st with cacheGet := st.cacheGet + 1 })
    fun st => { st with dbGet := st.dbGet + 1 }
  unfold serveGet
  simp only [filled.cache, ReqInfo.rename_cacheOnly, pure_ok]
  apply Agree.same
  rintro ⟨hit, val, vsize⟩
  simp only
  apply Agree.ite
  · exact (filled.count counts _).reply _
  · apply Agree.ite
    · apply filled.queueing
      intro rv s t alike
      apply Agree.ite
      · exact alike.reply _
      · exact alike
    · exact (filled.count counts _).replyLong _ _ _

theorem serveSet_alike (counts : CountAlike R) (alike : Alike R f q rs s t) (key val : Bytes) :
    Agree (Alike R f q rs) (serveSet m s req key val) (serveSet m t (req.rename f) key val) := by
  have filled := alike.fillCacheFlag counts req (fun st => { st with cacheSet := st.cacheSet + 1 })
    fun st => { st with dbSet := st.dbSet + 1 }
  unfold serveSet
  simp only [filled.cache, ReqInfo.rename_cacheOnly, ReqInfo.rename_sync, pure_ok]
  apply Agree.same
  rintro ⟨rv, cache⟩
  simp only
  apply Agree.ite
  · exact (filled.put cache).reply _
  · apply Agree.ite
    · apply (filled.put cache).queueing
      intro rv s t alike
      apply Agree.ite
      · exact alike.reply _
      · apply Agree.ite
        · exact alike.reply _
        · exact alike
    · exact (filled.put cache).reply _

theorem serveDel_alike (counts : CountAlike R) (alike : Alike R f q rs s t) (key : Bytes) :
    Agree (Alike R f q rs) (serveDel m s req key) (serveDel m t (req.rename f) key) := by
  have filled := alike.fillCacheFlag counts req (fun st => { st with cacheDel := st.cacheDel + 1 })
    fun st => { st with dbDel := st.dbDel + 1 }
  unfold serveDel
  simp only [filled.cache, ReqInfo.rename_cacheOnly, ReqInfo.rename_sync, pure_ok]
  apply Agree.same
  rintro ⟨hit, cache⟩
  simp only
  apply Agree.ite
  · exact (filled.put cache).reply _
  · apply Agree.ite
    · exact (filled.put cache).reply _
    · apply (filled.put cache).queueing
      intro rv s t alike
      apply Agree.ite
      · exact alike.reply _
      · apply Agree.ite
        · exact alike.reply _
        · exact alike

theorem serveCas_alike (counts : CountAlike R) (alike : Alike R f q rs s t) (key oldval newval : Bytes) :
    Agree (Alike R f q rs) (serveCas m s req key oldval newval) (serveCas m t (req.rename f) key oldval newval) := by
  have filled := alike.fillCacheFlag counts req (fun st => { st with cacheCas := st.cacheCas + 1 })
    fun st => { st with dbCas := st.dbCas + 1 }
  unfold serveCas
  simp only [filled.cache, ReqInfo.rename_cacheOnly, pure_ok]
  apply Agree.same
  rintro ⟨rv, cache⟩
  simp only
  apply Agree.ite
  · exact (filled.put cache).reply _
  · apply Agree.ite
    · exact (filled.put cache).reply _
    · apply Agree.ite
      · apply Agree.ite
        · exact (filled.put cache).reply _
        · exact (filled.put cache).reply _
      · apply (filled.put cache).queueing
        intro rv s t alike
        apply Agree.ite
        · exact alike.reply _
        · exact alike

theorem serveIncr_alike (counts : CountAlike R) (alike : Alike R f q rs s t) (key : Bytes) (increment : Int) :
    Agree (Alike R f q rs) (serveIncr m s req key increment) (serveIncr m t (req.rename f) key increment) := by
  have filled := alike.fillCacheFlag counts req (fun st => { st with cacheIncr := st.cacheIncr + 1 })
    fun st => { st with dbIncr := st.dbIncr + 1 }
  unfold serveIncr
  simp only [filled.cache, ReqInfo.rename_cacheOnly, pure_ok]
  apply Agree.same
  rintro ⟨⟨cres, newval⟩, cache⟩
  simp only
  apply Agree.ite
  · exact (filled.put cache).reply _
  · apply Agree.ite
    · exact (filled.put cache).reply _
    · apply Agree.ite
      · apply (filled.put cache).queueing
        intro rv s t alike
        apply Agree.ite
        · exact alike.reply _
        · exact alike
      · apply Agree.ite
        · exact (filled.put cache).reply _
        · exact (filled.put cache).reply _

theorem serveNextkey_alike (counts : CountAlike R) (alike : Alike R f q rs s t) (key : Bytes) :
    Agree (Alike R f q rs) (serveNextkey m s req key) (serveNextkey m t (req.rename f) key) := by
  unfold serveNextkey
  simp only [pure_ok]
  apply (alike.count counts _).queueing
  intro rv s t alike
  apply Agree.ite
  · exact alike.reply _
  · exact alike

theorem parseFirstkey_alike (counts : CountAlike R) (alike : Alike R f q rs s t) :
    Agree (Alike R f q rs) (parseFirstkey m s req) (parseFirstkey m t (req.rename f)) := by
  unfold parseFirstkey
  simp only [pure_ok]
  apply (alike.count counts _).queueing
  intro rv s t alike
  apply Agree.ite
  · exact alike.reply _
  · exact alike

theorem serve_alike (counts : CountAlike R) (alike : Alike R f q rs s t) (r : Request) :
    Agree (Alike R f q rs) (serve m s req r) (serve m t (req.rename f) r) := by
  have refused : ∀ {x : Except Fault (Server ν)} {y : Except Fault (Server μ)}, Agree (Alike R f q rs) x y →
      Agree (Alike R f q rs) (if s.settings.readOnly = true then .ok (s.reply req (.err .ro)) else x)
        (if t.settings.readOnly = true then .ok (t.reply (req.rename f) (.err .ro)) else y) := by
    intro x y agree
    rw [alike.settings]
    apply Agree.ite
    · exact alike.reply _
    · exact agree
  cases r with
  | get key => exact serveGet_alike counts alike key
  | set key val => exact refused (serveSet_alike counts alike key val)
  | del key => exact refused (serveDel_alike counts alike key)
  | cas key oldval newval => exact refused (serveCas_alike counts alike key oldval newval)
  | incr key increment => exact refused (serveIncr_alike counts alike key increment)
  | nextkey key => exact serveNextkey_alike counts alike key

theorem follow_alike (counts : CountAlike R) (alike : Alike R f q rs s t) {way : Route}
    (stats : way = .stats → s.stats = t.stats) :
    Agree (Alike R f q rs) (way.follow m s req) (way.follow m t (req.rename f)) := by
  cases way with
  | version => exact (alike.count counts _).reply _
  | unknown => exact (alike.count counts _).reply _
  | stats =>
    have same : parseStats t (req.rename f) =
        t.reply (req.rename f) (.long .ok (s.stats.fields.flatMap fun field => bytes64 (htonll field.toNat))) := by
      rw [parseStats, stats rfl]
    rw [Route.follow, Route.follow, same]
    exact alike.reply _
  | firstkey => exact parseFirstkey_alike counts alike
  | broken => exact alike.broken counts
  | readOnly => exact alike.reply _
  | request r => exact serve_alike counts alike r

theorem replyInfo_rename (f : ν → μ) (req : ReqInfo ν) (buf : Mem) :
    replyInfo (req.rename f) buf = (replyInfo req buf).rename f := by
  simp only [replyInfo, headerInfo, ReqInfo.rename]
  split
  · rfl
  · rfl

theorem parseMessage_alike (counts : CountAlike R) (alike : Alike R f q rs s t) (req : ReqInfo ν) (buf : Mem)
    (len : Nat) (stats : route s.settings.readOnly buf len = .stats → s.stats = t.stats) :
    Agree (fun x y => y.1 = x.1 ∧ Alike R f q rs x.2 y.2) (parseMessage m s req buf len)
      (parseMessage m t (req.rename f) buf len) := by
  rw [parseMessage_route m s, parseMessage_route m t, alike.settings, replyInfo_rename]
  apply Agree.bind (follow_alike counts alike stats)
  intro a b alike
  exact ⟨rfl, alike⟩

end

end Nmdb
