/-
This file proves when the loop of `urldb_set_cookie` ends.
-/

import Neosurf.Construction.Urldb.Cookies
import Neosurf.Proof.Urldb.StoredCookies

namespace Neosurf.Urldb

variable {env : Environment} {url : Nsurl} {scheme host path : Bytes}

/-- Nothing is read of a text that begins with a line end. -/
theorem parseLoop_lineEnd {cur : Bytes} (carriage : byteAt cur 0 = 13) (feed : byteAt cur 1 = 10)
    (prev : Option Byte) : parseLoop env prev {} cur = ({}, cur) := by
  cases cur with
  | nil => rfl
  | cons c rest =>
      rw [parseLoop, if_pos ⟨carriage, feed⟩]
      rfl

/-- What is left is the end of the text. -/
theorem parseLoop_suffix (prev : Option Byte) (s : ParseState) (cur : Bytes) :
    (parseLoop env prev s cur).2 <:+ cur := by
  induction cur generalizing prev s with
  | nil => exact List.suffix_rfl
  | cons c rest ih =>
      have later (prev : Option Byte) (s : ParseState) :
          (parseLoop env prev s rest).2 <:+ c :: rest :=
        (ih prev s).trans (List.suffix_cons c rest)
      rw [parseLoop]
      split_ifs
      · exact List.suffix_rfl
      · exact List.suffix_rfl
      · exact later ..
      · dsimp only
        split_ifs
        · exact List.suffix_cons c rest
        · exact later ..

/-- Any other text is read on. -/
theorem parseLoop_advances {cur : Bytes} (some : cur ≠ [])
    (text : ¬(byteAt cur 0 = 13 ∧ byteAt cur 1 = 10)) (prev : Option Byte) (s : ParseState) :
    (parseLoop env prev s cur).2.length < cur.length := by
  cases cur with
  | nil => exact absurd rfl some
  | cons c rest =>
      have later (prev : Option Byte) (s : ParseState) :
          (parseLoop env prev s rest).2.length < (c :: rest).length :=
        Nat.lt_succ_of_le (parseLoop_suffix prev s rest).length_le
      change ¬(c = 13 ∧ byteAt rest 0 = 10) at text
      rw [parseLoop, if_neg text]
      split_ifs
      · exact later ..
      · dsimp only
        split_ifs
        · exact Nat.lt_succ_self _
        · exact later ..

theorem parseCookie_rest {cur rest : Bytes} {c : Cookie}
    (parsed : parseCookie env url cur = some (c, rest)) : rest = (parseLoop env none {} cur).2 := by
  obtain ⟨d, complete, same⟩ := Option.bind_eq_some_iff.mp parsed
  cases same
  rfl

theorem parseCookie_suffix {cur rest : Bytes} {c : Cookie}
    (parsed : parseCookie env url cur = some (c, rest)) : rest <:+ cur :=
  parseCookie_rest parsed ▸ parseLoop_suffix ..

/-- The cookie that is read where nothing is read: without a name, for the page itself. -/
def unnamedCookie (host path : Bytes) : Cookie where
  name := []
  value := []
  domain := cstr host
  path := defaultPath path

theorem parseCookie_lineEnd (env : Environment) (hosted : url.components.host = some host)
    (located : url.components.path = some path) {cur : Bytes} (carriage : byteAt cur 0 = 13)
    (feed : byteAt cur 1 = 10) :
    parseCookie env url cur = some (unnamedCookie host path, cur) := by
  have drafted : (ParseState.flush env {}).draft = { name := some ([], [], false) } := rfl
  rw [parseCookie, parseLoop_lineEnd carriage feed]
  simp only [drafted, Draft.complete, hosted, located]
  rfl

/-- A call of `urldb_parse_cookie` that leaves unread input advances, but for a line end. -/
theorem parseCookie_advances {cur rest : Bytes} {c : Cookie}
    (parsed : parseCookie env url cur = some (c, rest)) (unread : 2 < rest.length)
    (text : ¬AtLineEnd cur) : rest.length < cur.length := by
  have rest_eq := parseCookie_rest parsed
  have shorter : rest.length ≤ cur.length := (parseCookie_suffix parsed).length_le
  have some : cur ≠ [] := by
    rintro rfl
    exact absurd (unread.trans_le shorter) (by decide)
  rw [rest_eq]
  refine parseLoop_advances some (fun line => text ?_) none {}
  exact ⟨line.1, line.2, unread.trans_le shorter⟩

section Rounds

variable {cur rest : Bytes} {c : Cookie} (rounds : Nat) (db : Database)

/-- A round after which the loop goes on. -/
theorem cookieLoop_round (parsed : parseCookie env url cur = some (c, rest))
    (valid : validCookie env host path c) (unread : 2 < rest.length) :
    cookieLoop env url scheme host path (rounds + 1) cur db =
      cookieLoop env url scheme host path rounds rest
        (insertCookie env db c scheme (Nsurl.defragment url)) := by
  rw [cookieLoop, parsed]
  simp only [valid, unread.not_ge, if_true, if_false]

/-- A round after which the loop has its answer. -/
theorem cookieLoop_last (scheme : Bytes)
    (last : ∀ c rest, parseCookie env url cur = some (c, rest) → validCookie env host path c →
      rest.length ≤ 2) :
    ∃ outcome, cookieLoop env url scheme host path (rounds + 1) cur db = some outcome := by
  rw [cookieLoop]
  cases parsed : parseCookie env url cur with
  | none => exact ⟨_, rfl⟩
  | some pair =>
      by_cases valid : validCookie env host path pair.1
      · have short := last pair.1 pair.2 parsed valid
        simp only [valid, short, if_true]
        exact ⟨_, rfl⟩
      · simp only [valid]
        exact ⟨_, rfl⟩

end Rounds

/-- The loop ends where it comes to no line end. The induction is on the text that is left. -/
theorem cookieLoop_ends (header : Bytes) (db : Database)
    (text : ∀ cur, Comes env url host path header cur → AtLineEnd cur →
      ¬validCookie env host path (unnamedCookie host path))
    (hosted : url.components.host = some host) (located : url.components.path = some path) :
    ∃ rounds outcome, cookieLoop env url scheme host path rounds header db = some outcome := by
  induction size : header.length using Nat.strong_induction_on generalizing header db with
  | _ size ih =>
      by_cases onwards : ∃ c rest, parseCookie env url header = some (c, rest) ∧
          validCookie env host path c ∧ 2 < rest.length
      · obtain ⟨c, rest, parsed, valid, unread⟩ := onwards
        have inside : ¬AtLineEnd header := by
          intro line
          have unnamed := parseCookie_lineEnd env hosted located line.1 line.2.1
          rw [unnamed] at parsed
          cases parsed
          exact text header (.here header) line valid
        have shorter := parseCookie_advances parsed unread inside
        obtain ⟨rounds, outcome, done⟩ := ih rest.length (size ▸ shorter) rest
          (insertCookie env db c scheme (Nsurl.defragment url))
          (fun cur comes => text cur (.round parsed valid unread comes)) rfl
        exact ⟨rounds + 1, outcome, (cookieLoop_round rounds db parsed valid unread).trans done⟩
      · simp only [not_exists, not_and, not_lt] at onwards
        obtain ⟨outcome, done⟩ := cookieLoop_last 0 db scheme onwards
        exact ⟨1, outcome, done⟩

/-- Where a cookie is taken and nothing is read, the loop never ends. -/
theorem cookieLoop_stuck {cur : Bytes} {c : Cookie}
    (parsed : parseCookie env url cur = some (c, cur)) (valid : validCookie env host path c)
    (unread : 2 < cur.length) (rounds : Nat) (db : Database) :
    cookieLoop env url scheme host path rounds cur db = none := by
  induction rounds generalizing db with
  | zero => rfl
  | succ rounds ih => rw [cookieLoop_round rounds db parsed valid unread, ih]

theorem cookieLoop_comes_stuck {header cur : Bytes} {c : Cookie}
    (comes : Comes env url host path header cur)
    (parsed : parseCookie env url cur = some (c, cur)) (valid : validCookie env host path c)
    (unread : 2 < cur.length) (rounds : Nat) (db : Database) :
    cookieLoop env url scheme host path rounds header db = none := by
  induction comes generalizing rounds db with
  | here cur => exact cookieLoop_stuck parsed valid unread rounds db
  | round first taken more onwards ih =>
      cases rounds with
      | zero => rfl
      | succ rounds => rw [cookieLoop_round rounds db first taken more, ih parsed unread]

theorem cookieLoop_of_setCookies {cur : Bytes} {db after : Database} {answer : Bool} {rounds : Nat}
    (done : setCookies env url scheme host path rounds cur db = .done after answer) :
    cookieLoop env url scheme host path rounds cur db = some (after, answer) := by
  induction rounds generalizing cur db with
  | zero => cases done
  | succ rounds ih =>
      rw [setCookies] at done
      rw [cookieLoop]
      cases parsed : parseCookie env url cur with
      | none =>
          rw [parsed] at done
          cases done
          rfl
      | some pair =>
          rw [parsed] at done
          dsimp only at done ⊢
          split_ifs at done ⊢
          · cases done
            rfl
          · exact ih done
          · cases done
            rfl

/-- Every round of a loop that ends reads something, so that the length of the text is enough. -/
theorem setCookies_of_cookieLoop {cur : Bytes} {db after : Database} {answer : Bool}
    {rounds limit : Nat} (enough : cur.length < limit)
    (done : cookieLoop env url scheme host path rounds cur db = some (after, answer)) :
    setCookies env url scheme host path limit cur db = .done after answer := by
  induction rounds generalizing cur db limit with
  | zero => cases done
  | succ rounds ih =>
      obtain ⟨limit, rfl⟩ : ∃ m, limit = m + 1 := ⟨limit - 1, by omega⟩
      have whole := done
      rw [cookieLoop] at done
      rw [setCookies]
      cases parsed : parseCookie env url cur with
      | none =>
          rw [parsed] at done
          cases done
          rfl
      | some pair =>
          rw [parsed] at done
          dsimp only at done ⊢
          split_ifs at done ⊢ with valid last same
          · cases done
            rfl
          · have stuck : pair.2 = cur := (parseCookie_suffix parsed).eq_of_length same
            rw [cookieLoop_stuck (c := pair.1) (by rw [parsed, ← stuck]) valid
              (stuck ▸ not_le.mp last)] at whole
            cases whole
          · have shorter := (parseCookie_suffix parsed).length_le
            exact ih (by omega) done
          · cases done
            rfl

/-- The rounds of a header are enough for the loop if any are. -/
theorem setCookies_done_iff (cur : Bytes) (db after : Database) (answer : Bool) :
    setCookies env url scheme host path (cur.length + 1) cur db = .done after answer ↔
      ∃ rounds, cookieLoop env url scheme host path rounds cur db = some (after, answer) := by
  constructor
  · exact fun done => ⟨_, cookieLoop_of_setCookies done⟩
  · rintro ⟨rounds, done⟩
    exact setCookies_of_cookieLoop (Nat.lt_succ_self _) done

/-- The loop ends exactly when no cookie without a name is taken at a line end that it comes to. -/
theorem cookieLoop_ends_iff (hosted : url.components.host = some host)
    (located : url.components.path = some path) (header : Bytes) (db : Database) :
    (∃ rounds outcome, cookieLoop env url scheme host path rounds header db = some outcome) ↔
      ∀ cur, Comes env url host path header cur → AtLineEnd cur →
        ¬validCookie env host path (unnamedCookie host path) := by
  constructor
  · rintro ⟨rounds, outcome, done⟩ cur comes line valid
    have parsed := parseCookie_lineEnd env hosted located line.1 line.2.1
    rw [cookieLoop_comes_stuck comes parsed valid line.2.2] at done
    cases done
  · exact fun text => cookieLoop_ends header db text hosted located

theorem suffix_of_comes {header cur : Bytes} (comes : Comes env url host path header cur) :
    cur <:+ header := by
  induction comes with
  | here cur => exact List.suffix_rfl
  | round parsed _ _ _ ih => exact ih.trans (parseCookie_suffix parsed)

/-- The loop progresses where it comes to no line end. -/
theorem progresses_of_text (hosted : url.components.host = some host)
    (located : url.components.path = some path) {header : Bytes} {db : Database}
    (text : ∀ cur, Comes env url host path header cur → ¬AtLineEnd cur) :
    Progresses env url scheme host path header db where
  ends := cookieLoop_ends header db (fun cur comes line => absurd line (text cur comes)) hosted
    located
  advances cur _ _ comes parsed unread := parseCookie_advances parsed unread (text cur comes)

/-- The loop progresses exactly when it comes to no line end inside the header. -/
theorem cookieLoop_progresses_iff (env : Environment) (url : Nsurl) (scheme host path : Bytes)
    (hosted : url.components.host = some host) (located : url.components.path = some path)
    (header : Bytes) (db : Database) :
    Progresses env url scheme host path header db ↔
      ∀ cur, Comes env url host path header cur → ¬AtLineEnd cur := by
  constructor
  · rintro progress cur comes ⟨carriage, feed, more⟩
    have parsed := parseCookie_lineEnd env hosted located carriage feed
    exact lt_irrefl _ (progress.advances cur _ cur comes parsed more)
  · exact progresses_of_text hosted located

/-- The loop over a header and its line end progresses for a page. -/
theorem cookieLoop_progresses_header : ∃ url,
    Nsurl.nsurlCreate (fun _ => 0) (str "http://h/a") = .ok url ∧
      Progresses plainEnvironment url (str "http") (str "h") (str "/a") (str "a=b\r\n") {} := by
  have plain : ∀ cur ∈ (str "a=b\r\n").tails, ¬AtLineEnd cur := by decide
  refine ⟨_, rfl, ?_⟩
  refine (cookieLoop_progresses_iff plainEnvironment _ (str "http") (str "h") (str "/a") rfl rfl
    (str "a=b\r\n") {}).mpr fun cur comes => ?_
  exact plain cur ((List.mem_tails _ _).mpr (suffix_of_comes comes))

/-- A line end inside a header, such as a script may set, is read again and again. -/
theorem cookieLoop_hangs : ∃ url,
    Nsurl.nsurlCreate (fun _ => 0) (str "http://h/a") = .ok url ∧
      setCookie plainEnvironment {} (str "a=b\r\nc=d") url none = .diverges ∧
      (∀ rounds, cookieLoop plainEnvironment url (str "http") (str "h") (str "/a") rounds
        (str "a=b\r\nc=d") {} = none) ∧
      ¬Progresses plainEnvironment url (str "http") (str "h") (str "/a") (str "a=b\r\nc=d") {} := by
  obtain ⟨url, c, created, hosted, located, parsed, valid, loops⟩ : ∃ url c,
      Nsurl.nsurlCreate (fun _ => 0) (str "http://h/a") = .ok url ∧
      url.components.host = some (str "h") ∧ url.components.path = some (str "/a") ∧
      parseCookie plainEnvironment url (str "a=b\r\nc=d") = some (c, str "\r\nc=d") ∧
      validCookie plainEnvironment (str "h") (str "/a") c = true ∧
      setCookie plainEnvironment {} (str "a=b\r\nc=d") url none = .diverges :=
    ⟨_, _, rfl, rfl, rfl, rfl, by decide, rfl⟩
  have comes : Comes plainEnvironment url (str "h") (str "/a") (str "a=b\r\nc=d") (str "\r\nc=d") :=
    .round parsed valid (by decide) (.here _)
  have again : parseCookie plainEnvironment url (str "\r\nc=d") =
      some (unnamedCookie (str "h") (str "/a"), str "\r\nc=d") :=
    parseCookie_lineEnd plainEnvironment hosted located (by decide) (by decide)
  have never (rounds : Nat) : cookieLoop plainEnvironment url (str "http") (str "h") (str "/a") rounds
      (str "a=b\r\nc=d") {} = none :=
    cookieLoop_comes_stuck comes again (by decide) (by decide) rounds {}
  refine ⟨url, created, loops, never, fun progress => ?_⟩
  obtain ⟨rounds, outcome, done⟩ := progress.ends
  rw [never] at done
  cases done

end Neosurf.Urldb
