import Nmdb.Server

/-! The parsing of messages. Each parse function reads the sizes from the payload,
checks them and cuts out keys and values; what it does with them is its serve part. -/
namespace Nmdb

variable {ν : Type}

/-- The largest size a write accepts, and the int a size is compared with. -/
def maxSize : Nat := 65536

namespace Server

def broken (s : Server ν) (req : ReqInfo ν) : Server ν :=
  (s.count fun st => { st with netBrokenReq := st.netBrokenReq + 1 }).reply req (.err .broken)

/-- FILL_CACHE_FLAG: a request counts as one of the cache or one of the database. -/
def fillCacheFlag (s : Server ν) (req : ReqInfo ν) (cache db : Stats → Stats) : Server ν :=
  s.count (if req.cacheOnly then cache else db)

end Server

def serveGet (m : Mallocs) (s : Server ν) (req : ReqInfo ν) (key : Bytes) :
    Except Fault (Server ν) := do
  let s := s.fillCacheFlag req (fun st => { st with cacheGet := st.cacheGet + 1 }) fun st =>
    { st with dbGet := st.dbGet + 1 }
  let (hit, val, vsize) ← cacheGet s.cache key
  if req.cacheOnly && !hit then
    let s := s.count fun st => { st with cacheMisses := st.cacheMisses + 1 }
    return s.reply req (.mini .cacheMiss)
  else if !req.cacheOnly && !hit then
    let (rv, s) ← putInQueue m s req .get (some key) none
    if !rv then return s.reply req (.err .mem)
    else return s
  else
    let s := s.count fun st => { st with cacheHits := st.cacheHits + 1 }
    s.replyLong req .cacheHit val vsize

def parseGet (m : Mallocs) (s : Server ν) (req : ReqInfo ν) (payload : Mem) (psize : Nat) :
    Except Fault (Server ν) :=
  let ksize := ntohl (load32 payload 0)
  if psize < ksize then .ok (s.broken req)
  else serveGet m s req (slice payload 4 ksize)

def serveSet (m : Mallocs) (s : Server ν) (req : ReqInfo ν) (key val : Bytes) :
    Except Fault (Server ν) := do
  let s := s.fillCacheFlag req (fun st => { st with cacheSet := st.cacheSet + 1 }) fun st =>
    { st with dbSet := st.dbSet + 1 }
  let (rv, cache) ← cacheSet m.cache s.cache key val
  let s := { s with cache := cache }
  if rv ≠ 0 then return s.reply req (.err .mem)
  else if !req.cacheOnly then
    let (rv, s) ← putInQueue m s req .set (some key) (some val)
    if !rv then return s.reply req (.err .mem)
    else if !req.sync then return s.reply req (.mini .ok)
    else return s
  else return s.reply req (.mini .ok)

def parseSet (m : Mallocs) (s : Server ν) (req : ReqInfo ν) (payload : Mem) (psize : Nat) :
    Except Fault (Server ν) :=
  let ksize := ntohl (load32 payload 0)
  let vsize := ntohl (load32 payload 4)
  if psize < ksize ∨ psize < vsize ∨ maxSize < ksize ∨ maxSize < vsize ∨
      maxSize < u32 (ksize + vsize) then
    .ok (s.broken req)
  else if s.settings.readOnly then .ok (s.reply req (.err .ro))
  else serveSet m s req (slice payload 8 ksize) (slice payload (8 + ksize) vsize)

def serveDel (m : Mallocs) (s : Server ν) (req : ReqInfo ν) (key : Bytes) :
    Except Fault (Server ν) := do
  let s := s.fillCacheFlag req (fun st => { st with cacheDel := st.cacheDel + 1 }) fun st =>
    { st with dbDel := st.dbDel + 1 }
  let (hit, cache) ← cacheDel s.cache key
  let s := { s with cache := cache }
  if req.cacheOnly && hit ≠ 0 then return s.reply req (.mini .ok)
  else if req.cacheOnly && hit = 0 then return s.reply req (.mini .notin)
  else
    let (rv, s) ← putInQueue m s req .del (some key) none
    if !rv then return s.reply req (.err .mem)
    else if !req.sync then return s.reply req (.mini .ok)
    else return s

def parseDel (m : Mallocs) (s : Server ν) (req : ReqInfo ν) (payload : Mem) (psize : Nat) :
    Except Fault (Server ν) :=
  let ksize := ntohl (load32 payload 0)
  if psize < ksize then .ok (s.broken req)
  else if s.settings.readOnly then .ok (s.reply req (.err .ro))
  else serveDel m s req (slice payload 4 ksize)

def serveCas (m : Mallocs) (s : Server ν) (req : ReqInfo ν) (key oldval newval : Bytes) :
    Except Fault (Server ν) := do
  let s := s.fillCacheFlag req (fun st => { st with cacheCas := st.cacheCas + 1 }) fun st =>
    { st with dbCas := st.dbCas + 1 }
  let (rv, cache) ← cacheCas m.cache s.cache key oldval newval
  let s := { s with cache := cache }
  if rv = -1 then return s.reply req (.mini .nomatch)
  else if rv = -3 then return s.reply req (.err .mem)
  else if req.cacheOnly then
    if rv = 0 then return s.reply req (.mini .ok)
    else return s.reply req (.mini .notin)
  else
    let (rv, s) ← putInQueueLong m s req .cas (some key) (some oldval) (some newval)
    if !rv then return s.reply req (.err .mem)
    else return s

def parseCas (m : Mallocs) (s : Server ν) (req : ReqInfo ν) (payload : Mem) (psize : Nat) :
    Except Fault (Server ν) :=
  let ksize := ntohl (load32 payload 0)
  let ovsize := ntohl (load32 payload 4)
  let nvsize := ntohl (load32 payload 8)
  if psize < ksize ∨ psize < ovsize ∨ psize < nvsize ∨ maxSize < ksize ∨ maxSize < ovsize ∨
      maxSize < nvsize ∨ maxSize < u32 (ksize + ovsize + nvsize) then
    .ok (s.broken req)
  else if s.settings.readOnly then .ok (s.reply req (.err .ro))
  else serveCas m s req (slice payload 12 ksize) (slice payload (12 + ksize) ovsize)
    (slice payload (12 + ksize + ovsize) nvsize)

def serveIncr (m : Mallocs) (s : Server ν) (req : ReqInfo ν) (key : Bytes) (increment : Int) :
    Except Fault (Server ν) := do
  let s := s.fillCacheFlag req (fun st => { st with cacheIncr := st.cacheIncr + 1 }) fun st =>
    { st with dbIncr := st.dbIncr + 1 }
  let ((cres, newval), cache) ← cacheIncr m.cache s.cache key increment
  let s := { s with cache := cache }
  if cres = -3 then return s.reply req (.err .mem)
  else if cres = -2 then return s.reply req (.mini .nomatch)
  else if !req.cacheOnly then
    let (rv, s) ← putInQueue m s req .incr (some key) (some (bytes64 (ofInt64 increment)))
    if !rv then return s.reply req (.err .mem)
    else return s
  else if cres = -1 then return s.reply req (.mini .notin)
  else return s.reply req (.long .ok (bytes64 (htonll (ofInt64 newval))))

def parseIncr (m : Mallocs) (s : Server ν) (req : ReqInfo ν) (payload : Mem) (psize : Nat) :
    Except Fault (Server ν) :=
  let ksize := ntohl (load32 payload 0)
  -- ksize + 8 is a uint32_t
  if psize < u32 (ksize + 8) ∨ maxSize < u32 (ksize + 8) then .ok (s.broken req)
  else if s.settings.readOnly then .ok (s.reply req (.err .ro))
  else serveIncr m s req (slice payload 4 ksize) (toInt64 (ntohll (load64 payload (4 + ksize))))

def parseFirstkey (m : Mallocs) (s : Server ν) (req : ReqInfo ν) : Except Fault (Server ν) := do
  let s := s.count fun st => { st with dbFirstkey := st.dbFirstkey + 1 }
  let (rv, s) ← putInQueue m s req .firstkey none none
  if !rv then return s.reply req (.err .mem)
  else return s

def serveNextkey (m : Mallocs) (s : Server ν) (req : ReqInfo ν) (key : Bytes) :
    Except Fault (Server ν) := do
  let s := s.count fun st => { st with dbNextkey := st.dbNextkey + 1 }
  let (rv, s) ← putInQueue m s req .nextkey (some key) none
  if !rv then return s.reply req (.err .mem)
  else return s

def parseNextkey (m : Mallocs) (s : Server ν) (req : ReqInfo ν) (payload : Mem) (psize : Nat) :
    Except Fault (Server ν) :=
  let ksize := ntohl (load32 payload 0)
  if psize < ksize then .ok (s.broken req)
  else serveNextkey m s req (slice payload 4 ksize)

def parseStats (s : Server ν) (req : ReqInfo ν) : Server ν :=
  s.reply req (.long .ok (s.stats.fields.flatMap fun field => bytes64 (htonll field.toNat)))

/-- The header of a message, in host byte order. -/
def version (buf : Mem) : Nat := htonl (load32 buf 0) / 2 ^ 28 % 2 ^ 4
def requestId (buf : Mem) : Nat := htonl (load32 buf 0) % 2 ^ 28
def command (buf : Mem) : Nat := ntohs (load16 buf 4)
def flagBits (buf : Mem) : Nat := ntohs (load16 buf 6)

/-- The parse function of a command. -/
def parseCommand (m : Mallocs) (s : Server ν) (req : ReqInfo ν) (payload : Mem) (psize : Nat) :
    Except Fault (Server ν) :=
  if req.cmd = Req.get.code then parseGet m s req payload psize
  else if req.cmd = Req.set.code then parseSet m s req payload psize
  else if req.cmd = Req.del.code then parseDel m s req payload psize
  else if req.cmd = Req.cas.code then parseCas m s req payload psize
  else if req.cmd = Req.incr.code then parseIncr m s req payload psize
  else if req.cmd = Req.firstkey.code then parseFirstkey m s req
  else if req.cmd = Req.nextkey.code then parseNextkey m s req payload psize
  else if req.cmd = Req.stats.code then .ok (parseStats s req)
  else
    let s := s.count fun st => { st with netUnkReq := st.netUnkReq + 1 }
    .ok (s.reply req (.err .unkreq))

/-- What a message with the right version leaves in the request information. -/
def headerInfo (req : ReqInfo ν) (buf : Mem) : ReqInfo ν :=
  { req with id := htonl (requestId buf), cmd := command buf, flags := flagBits buf }

/-- The result tells whether the message was understood; req holds what the network
layer and earlier messages left in it. -/
def parseMessage (m : Mallocs) (s : Server ν) (req : ReqInfo ν) (buf : Mem) (len : Nat) :
    Except Fault (Bool × Server ν) :=
  if version buf ≠ PROTO_VER then
    let s := s.count fun st => { st with netVersionMismatch := st.netVersionMismatch + 1 }
    .ok (false, s.reply { req with id := requestId buf } (.err .ver))
  else do
    let s ← parseCommand m s (headerInfo req buf) (buf.from 8) (sizeSub len 8)
    return (true, s)

end Nmdb
