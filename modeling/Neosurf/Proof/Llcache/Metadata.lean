import Neosurf.Construction.Llcache.Metadata

namespace Neosurf.Llcache

/-- These are the headers that the lines add to an object. -/
def collect (lines : List Bytes) : List Header :=
  (lines.map splitHeader).filter fun header => header.name ≠ []

/-- The response time stays as it is. -/
def Timed (clock : Clock) (cache : CacheControl) : Prop := cache.resTime ≠ 0 ∨ clock.now = 0

/-- The last response starts at the last status line. -/
def lastResponse : List Bytes → Option (List Bytes)
  | [] => none
  | line :: rest =>
      match lastResponse rest with
      | some response => some response
      | none => if isStatusLine line then some (line :: rest) else none

/-- This is the cache data of a response that starts at these lines. -/
def responseCache (clock : Clock) (reqTime : Int) (response : List Bytes) : CacheControl :=
  (collect response).foldl (headerCacheControl clock)
    { invalidCacheControl with reqTime, resTime := clock.now }

/-- A header changes neither the request time nor the response time. -/
theorem headerCacheControl_times (clock : Clock) (cache : CacheControl) (header : Header) :
    (headerCacheControl clock cache header).reqTime = cache.reqTime ∧
      (headerCacheControl clock cache header).resTime = cache.resTime := by
  have parsed (value : Bytes) : (parseCacheControl cache value).reqTime = cache.reqTime ∧
      (parseCacheControl cache value).resTime = cache.resTime := by
    unfold parseCacheControl
    split <;> exact ⟨rfl, rfl⟩
  unfold headerCacheControl
  dsimp only
  split
  · split <;> exact ⟨rfl, rfl⟩
  · split
    · split <;> exact ⟨rfl, rfl⟩
    · split <;> exact ⟨rfl, rfl⟩
  · split <;> exact ⟨rfl, rfl⟩
  · split
    · exact parsed _
    · split
      · split <;> exact ⟨rfl, rfl⟩
      · exact ⟨rfl, rfl⟩
  · exact ⟨rfl, rfl⟩

/-- The response time stays set. -/
theorem headerCacheControl_timed {clock : Clock} {cache : CacheControl} (header : Header)
    (timed : Timed clock cache) : Timed clock (headerCacheControl clock cache header) := by
  rw [Timed, (headerCacheControl_times clock cache header).2]
  exact timed

theorem setResponseTime_of_timed {clock : Clock} {object : LlcacheObject}
    (timed : Timed clock object.cache) : setResponseTime clock object = object := by
  unfold setResponseTime
  split
  · rename_i unset
    rcases timed with set | epoch
    · exact absurd unset set
    · rw [epoch, ← unset]
  · rfl

/-- An object changes under the clock unless its response time stays as it is. -/
theorem setResponseTime_eq_iff {clock : Clock} {object : LlcacheObject} :
    setResponseTime clock object = object ↔ Timed clock object.cache := by
  refine ⟨fun same => ?_, setResponseTime_of_timed⟩
  by_cases unset : object.cache.resTime = 0
  · right
    rw [setResponseTime, if_pos unset] at same
    have time := congrArg (fun object : LlcacheObject => object.cache.resTime) same
    exact time.trans unset
  · exact Or.inl unset

theorem setResponseTime_timed (clock : Clock) (object : LlcacheObject) :
    Timed clock (setResponseTime clock object).cache := by
  unfold setResponseTime
  split
  · by_cases epoch : clock.now = 0
    · exact Or.inr epoch
    · exact Or.inl epoch
  · rename_i set
    exact Or.inl set

/-- The object receives these headers within one response. -/
def receive (clock : Clock) (object : LlcacheObject) (headers : List Header) : LlcacheObject :=
  { object with
    cache := headers.foldl (headerCacheControl clock) object.cache
    headers := object.headers ++ headers }

theorem receive_receive (clock : Clock) (object : LlcacheObject) (first second : List Header) :
    receive clock (receive clock object first) second = receive clock object (first ++ second) := by
  simp [receive]

/-- Headers keep the response time set. -/
theorem receive_timed {clock : Clock} {object : LlcacheObject} (headers : List Header)
    (timed : Timed clock object.cache) : Timed clock (receive clock object headers).cache :=
  List.foldlRecOn headers _ timed fun _ before header _ => headerCacheControl_timed header before

/-- Headers keep the request time. -/
theorem receive_reqTime (clock : Clock) (object : LlcacheObject) (headers : List Header) :
    (receive clock object headers).cache.reqTime = object.cache.reqTime := by
  change (headers.foldl (headerCacheControl clock) object.cache).reqTime = object.cache.reqTime
  induction headers generalizing object with
  | nil => rfl
  | cons header rest ih =>
      have after := ih { object with cache := headerCacheControl clock object.cache header }
      rw [List.foldl_cons, after]
      exact (headerCacheControl_times clock object.cache header).1

theorem collect_cons (line : Bytes) (rest : List Bytes) :
    collect (line :: rest) = collect [line] ++ collect rest := by
  rw [collect, collect, collect, ← List.filter_append]
  rfl

/-- A line adds its header, after a reset if it is a status line. -/
theorem processHeader_eq (clock : Clock) (object : LlcacheObject) (line : Bytes) :
    processHeader clock object line = receive clock (setResponseTime clock
      (if isStatusLine line then restartResponse object else object)) (collect [line]) := by
  unfold processHeader
  dsimp only
  by_cases empty : (splitHeader line).name = []
  · simp [collect, empty, receive]
  · simp [collect, empty, receive]

/-- A line without status stands before lines without status. -/
theorem lastResponse_cons_eq_none {line : Bytes} {rest : List Bytes}
    (plain : lastResponse (line :: rest) = none) :
    isStatusLine line = false ∧ lastResponse rest = none := by
  rw [lastResponse] at plain
  split at plain
  · cases plain
  · rename_i last
    exact ⟨by simpa using plain, last⟩

/-- Lines without a status line add their headers to an object with a response time. -/
theorem foldl_processHeader {clock : Clock} (lines : List Bytes) {object : LlcacheObject}
    (plain : lastResponse lines = none) (timed : Timed clock object.cache) :
    lines.foldl (processHeader clock) object = receive clock object (collect lines) := by
  induction lines generalizing object with
  | nil => simp [collect, receive]
  | cons line rest ih =>
      obtain ⟨status, last⟩ := lastResponse_cons_eq_none plain
      have first : processHeader clock object line = receive clock object (collect [line]) := by
        rw [processHeader_eq, status]
        simp [setResponseTime_of_timed timed]
      rw [List.foldl_cons, first, ih last (receive_timed _ timed), receive_receive, ← collect_cons]

/-- A first line without status sets the response time, and then adds its header. -/
theorem foldl_processHeader_start {clock : Clock} {lines : List Bytes} {object : LlcacheObject}
    (plain : lastResponse lines = none) (some_line : lines ≠ []) :
    lines.foldl (processHeader clock) object =
      receive clock (setResponseTime clock object) (collect lines) := by
  cases lines with
  | nil => exact absurd rfl some_line
  | cons line rest =>
      rw [← foldl_processHeader _ plain (setResponseTime_timed clock object)]
      obtain ⟨status, -⟩ := lastResponse_cons_eq_none plain
      rw [List.foldl_cons, List.foldl_cons, processHeader_eq, processHeader_eq, status]
      simp [setResponseTime_of_timed (setResponseTime_timed clock object)]

theorem setResponseTime_frame (clock : Clock) (object : LlcacheObject) :
    setResponseTime clock object = { object with cache := (setResponseTime clock object).cache } ∧
      (setResponseTime clock object).cache.reqTime = object.cache.reqTime := by
  unfold setResponseTime
  split <;> exact ⟨rfl, rfl⟩

/-- A line changes nothing but the headers and the cache data, and keeps the request time. -/
theorem processHeader_frame (clock : Clock) (object : LlcacheObject) (line : Bytes) :
    processHeader clock object line = { object with
        cache := (processHeader clock object line).cache
        headers := (processHeader clock object line).headers } ∧
      (processHeader clock object line).cache.reqTime = object.cache.reqTime := by
  rw [processHeader_eq, receive_reqTime, (setResponseTime_frame clock _).2]
  constructor
  · rw [receive, (setResponseTime_frame clock _).1]
    split <;> rfl
  · split <;> rfl

/-- All lines together change no more than one line. -/
theorem foldl_processHeader_frame (clock : Clock) (lines : List Bytes) (object : LlcacheObject) :
    let after := lines.foldl (processHeader clock) object
    after = { object with cache := after.cache, headers := after.headers } ∧
      after.cache.reqTime = object.cache.reqTime := by
  induction lines generalizing object with
  | nil => exact ⟨rfl, rfl⟩
  | cons line rest ih =>
      obtain ⟨first, kept⟩ := processHeader_frame clock object line
      obtain ⟨after, kept'⟩ := ih (processHeader clock object line)
      refine ⟨?_, kept'.trans kept⟩
      rw [List.foldl_cons, after, first]

/-- The last response is a final part of the lines that starts with a status line. -/
theorem lastResponse_eq_some {lines response : List Bytes}
    (found : lastResponse lines = some response) :
    ∃ before line rest, lines = before ++ line :: rest ∧ response = line :: rest ∧
      isStatusLine line = true ∧ lastResponse rest = none := by
  induction lines with
  | nil => cases found
  | cons line rest ih =>
      rw [lastResponse] at found
      split at found
      · rename_i later
        cases found
        obtain ⟨before, first, after, parts, same, status, last⟩ := ih later
        exact ⟨line :: before, first, after, by rw [parts, List.cons_append], same, status, last⟩
      · rename_i none_later
        split at found
        · cases found
          rename_i status
          exact ⟨[], line, rest, rfl, rfl, status, none_later⟩
        · cases found

/-- The last response alone decides about the headers and the cache data. -/
theorem foldl_processHeader_response {clock : Clock} {lines response : List Bytes}
    (object : LlcacheObject) (found : lastResponse lines = some response) :
    lines.foldl (processHeader clock) object = { object with
      cache := responseCache clock object.cache.reqTime response
      headers := collect response } := by
  obtain ⟨before, line, rest, rfl, rfl, status, last⟩ := lastResponse_eq_some found
  obtain ⟨earlier, kept⟩ := foldl_processHeader_frame clock before object
  have restarted (object : LlcacheObject) :
      setResponseTime clock (restartResponse object) = { object with
        cache := { invalidCacheControl with
          reqTime := object.cache.reqTime, resTime := clock.now }
        headers := [] } := rfl
  rw [List.foldl_append, List.foldl_cons, earlier, processHeader_eq, if_pos status,
    foldl_processHeader rest last (receive_timed _ (setResponseTime_timed clock _)),
    receive_receive, ← collect_cons, restarted, kept]
  rfl

/-- These header lines leave no trace. Either they hold neither a status line nor a
header, and the response time stays as it is, or the object is already as the last
response among them makes it. -/
def LeavesNoTrace (clock : Clock) (object : LlcacheObject) (lines : List Bytes) : Prop :=
  match lastResponse lines with
  | none => collect lines = [] ∧ (lines = [] ∨ Timed clock object.cache)
  | some response =>
      object.headers = collect response ∧
        object.cache = responseCache clock object.cache.reqTime response

/-- The header lines of this stored answer, if it has them, leave no trace. -/
def HeadersLeaveNoTrace (clock : Clock) (junk : Nsurl.Buff) (stored : Except Nserror Bytes)
    (object : LlcacheObject) : Prop :=
  ∀ metadata front rest lines after, stored = .ok metadata →
    readFront junk object.url metadata = .ok (front, rest) →
    readLines front.numHeaders rest = .ok (lines, after) → LeavesNoTrace clock object lines

/-- Header lines leave an object as it is exactly when they leave no trace. -/
theorem foldl_processHeader_eq_iff (clock : Clock) (object : LlcacheObject) (lines : List Bytes) :
    lines.foldl (processHeader clock) object = object ↔ LeavesNoTrace clock object lines := by
  unfold LeavesNoTrace
  split
  · rename_i plain
    by_cases empty : lines = []
    · simp [empty, collect]
    rw [foldl_processHeader_start plain empty]
    constructor
    · intro same
      have headers : object.headers ++ collect lines = object.headers := by
        have kept := congrArg LlcacheObject.headers same
        rw [receive, (setResponseTime_frame clock object).1] at kept
        exact kept
      have none_collected : collect lines = [] := by simpa using headers
      refine ⟨none_collected, Or.inr (setResponseTime_eq_iff.mp ?_)⟩
      rw [none_collected] at same
      simpa [receive] using same
    · rintro ⟨none_collected, blank | timed⟩
      · exact absurd blank empty
      · rw [none_collected, setResponseTime_of_timed timed]
        simp [receive]
  · rename_i response found
    rw [foldl_processHeader_response object found]
    constructor
    · intro same
      exact ⟨(congrArg LlcacheObject.headers same).symm,
        (congrArg LlcacheObject.cache same).symm⟩
    · rintro ⟨headers, cache⟩
      rw [← headers, ← cache]

/-- A failed read keeps the object that it is given. -/
theorem fail_eq_some {failure : MetadataFailure} {object after : LlcacheObject} {res : Nserror}
    (done : fail failure object = some (res, after)) : after = object := by
  cases failure with
  | error res => cases done; rfl
  | undefined => cases done

/-- Lines joined by NULs. -/
def nulLines (lines : List String) : Bytes := lines.flatMap fun line => str line ++ [0]

/-- A stored object of `http://a/` whose certificate count is no number. -/
def badCount : Bytes := nulLines ["http://a/", "5", "1", "1", "1", "1", "ETag: x", "none"]

end Neosurf.Llcache
