import Mathlib.Data.List.Basic
import Mathlib.Data.List.Infix
import Mathlib.Logic.Function.Basic
import MSylar.Lib.Text

/-!
# The routes of an HTTP server (httpServer.cc:192-195, 225-256, wsserver.tpp:169-188)

The table is keyed by the path; the method is part of the entry. A handler is a value of the type
`H`, so a handler that runs is the one that was registered.
-/

namespace MSylar.Server
open MSylar.Text MSylar.Word
variable {H : Type*}

inductive HttpMethod where
  | DELETE | GET | HEAD | POST | PUT
  | CONNECT | OPTIONS | TRACE
  | COPY | LOCK | MKCOL | MOVE | PROPFIND | PROPPATCH | SEARCH | UNLOCK | BIND | REBIND | UNBIND | ACL
  | REPORT | MKACTIVITY | CHECKOUT | MERGE
  | MSEARCH | NOTIFY | SUBSCRIBE | UNSUBSCRIBE
  | PATCH | PURGE
  | MKCALENDAR
  | LINK | UNLINK
  | SOURCE
  | HTTP_INVALID_METHOD
  deriving DecidableEq

def httpMethodToString : HttpMethod → String
  | .DELETE => "DELETE"
  | .GET => "GET"
  | .HEAD => "HEAD"
  | .POST => "POST"
  | .PUT => "PUT"
  | .CONNECT => "CONNECT"
  | .OPTIONS => "OPTIONS"
  | .TRACE => "TRACE"
  | .COPY => "COPY"
  | .LOCK => "LOCK"
  | .MKCOL => "MKCOL"
  | .MOVE => "MOVE"
  | .PROPFIND => "PROPFIND"
  | .PROPPATCH => "PROPPATCH"
  | .SEARCH => "SEARCH"
  | .UNLOCK => "UNLOCK"
  | .BIND => "BIND"
  | .REBIND => "REBIND"
  | .UNBIND => "UNBIND"
  | .ACL => "ACL"
  | .REPORT => "REPORT"
  | .MKACTIVITY => "MKACTIVITY"
  | .CHECKOUT => "CHECKOUT"
  | .MERGE => "MERGE"
  | .MSEARCH => "M-SEARCH"
  | .NOTIFY => "NOTIFY"
  | .SUBSCRIBE => "SUBSCRIBE"
  | .UNSUBSCRIBE => "UNSUBSCRIBE"
  | .PATCH => "PATCH"
  | .PURGE => "PURGE"
  | .MKCALENDAR => "MKCALENDAR"
  | .LINK => "LINK"
  | .UNLINK => "UNLINK"
  | .SOURCE => "SOURCE"
  | .HTTP_INVALID_METHOD => "Http invalid method"

-- `m_urls`
abbrev Urls (H : Type*) := List Char → Option (HttpMethod × H)

namespace Urls

def registerUrl (urls : Urls H) (url : List Char) (cb : H) (method : HttpMethod) : Urls H :=
  Function.update urls url (some (method, cb))

def GET (urls : Urls H) (url : List Char) (cb : H) : Urls H := urls.registerUrl url cb .GET

def POST (urls : Urls H) (url : List Char) (cb : H) : Urls H := urls.registerUrl url cb .POST

/-- `WsServer::registerUrl`; `cb` is the handler it makes for its type of WebSocket handlers. -/
def registerWs (urls : Urls H) (url : List Char) (cb : H) : Urls H := urls.registerUrl url cb .GET

/-- The part of the URL that is looked up. `none` means that `substr` throws. -/
def requestPath (url : List Char) : Option (List Char) :=
  let idx := int32 (find url '?' 0)
  if sizeT idx ≠ npos then substr url 0 (sizeT idx) else some url

/-- The handler that is run for a request, if there is one. -/
def execHandler (urls : Urls H) (url : List Char) (method : String) : Option (Option H) :=
  (requestPath url).map fun path =>
    match urls path with
    | none => none
    | some (registered, cb) => if method ≠ httpMethodToString registered then none else some cb

end Urls

inductive Registration (H : Type*) where
  | GET (url : List Char) (cb : H)
  | POST (url : List Char) (cb : H)
  | ws (url : List Char) (cb : H)

namespace Registration

def url : Registration H → List Char
  | .GET url _ | .POST url _ | .ws url _ => url

def cb : Registration H → H
  | .GET _ cb | .POST _ cb | .ws _ cb => cb

def method : Registration H → HttpMethod
  | .GET _ _ | .ws _ _ => .GET
  | .POST _ _ => .POST

def register (urls : Urls H) : Registration H → Urls H
  | .GET url cb => urls.GET url cb
  | .POST url cb => urls.POST url cb
  | .ws url cb => urls.registerWs url cb

theorem register_eq (urls : Urls H) (r : Registration H) :
    register urls r = Function.update urls r.url (some (r.method, r.cb)) := by
  cases r <;> rfl

/-- The registration is for this path and method. -/
def Serves (path : List Char) (method : String) (r : Registration H) : Prop :=
  r.url = path ∧ method = httpMethodToString r.method

instance (path : List Char) (method : String) (r : Registration H) :
    Decidable (r.Serves path method) :=
  inferInstanceAs (Decidable (_ ∧ _))

end Registration

def routes (regs : List (Registration H)) : Urls H :=
  regs.foldl Registration.register fun _ => none

/-- The handler registered last for a path and a method. -/
def latest (regs : List (Registration H)) (path : List Char) (method : String) : Option H :=
  (regs.reverse.find? fun r => r.Serves path method).map Registration.cb

/-- The position of the `?` is an `int`; a received URL has at most 16000 characters. -/
def Fits (url : List Char) : Prop := '?' ∈ url → url.length < 2^31

/-- After any number of the registrations a request runs the handler registered last for its path
and method, and the next registration leaves the requests for other pairs alone. -/
def Independent (regs : List (Registration H)) : Prop :=
  ∀ seen, seen <+: regs →
    (∀ url method, Fits url →
      (routes seen).execHandler url method = some (latest seen (before '?' url) method)) ∧
    ∀ r, seen ++ [r] <+: regs → ∀ url method, Fits url → ¬r.Serves (before '?' url) method →
      (routes (seen ++ [r])).execHandler url method = (routes seen).execHandler url method

/-- No path that a request can have is registered for two methods. -/
def OneMethod (regs : List (Registration H)) : Prop :=
  ∀ a ∈ regs, ∀ b ∈ regs, a.url = b.url → '?' ∉ a.url → a.method = b.method

/-! ### The table -/

theorem routes_append (regs : List (Registration H)) (r : Registration H) :
    routes (regs ++ [r]) = Function.update (routes regs) r.url (some (r.method, r.cb)) := by
  unfold routes
  rw [List.foldl_append, List.foldl_cons, List.foldl_nil, Registration.register_eq]

/-- The table holds the last registration of each path. -/
theorem routes_apply (regs : List (Registration H)) (path : List Char) :
    routes regs path =
      (regs.reverse.find? fun r => r.url = path).map fun r => (r.method, r.cb) := by
  induction regs using List.reverseRecOn with
  | nil => rfl
  | append_singleton regs r ih =>
    rw [routes_append, List.reverse_append, List.reverse_singleton, List.singleton_append,
      List.find?_cons]
    by_cases hurl : r.url = path
    · simp [hurl]
    · simp [hurl, Function.update_of_ne (Ne.symm hurl), ih]

theorem requestPath_eq {url : List Char} (h : Fits url) :
    Urls.requestPath url = some (before '?' url) := by
  unfold Urls.requestPath
  by_cases hquest : '?' ∈ url
  · have hlen := h hquest
    obtain ⟨p, t, rfl, hp⟩ := List.eq_append_cons_of_mem hquest
    rw [List.length_append] at hlen
    rw [find_first hp, int32_of_lt (by omega)]
    simp only [if_pos (sizeT_ne_npos (n := p.length) (by omega))]
    rw [sizeT_natCast (by omega), substr_prefix, before_append_cons hp]
  · simp [find_absent hquest, int32_npos, sizeT_neg_one, before_of_not_mem hquest]

/-- Whether the last registration of the path is for another method decides what is run. -/
theorem execHandler_routes (regs : List (Registration H)) {url : List Char} (h : Fits url)
    (method : String) :
    (routes regs).execHandler url method =
      some (((regs.reverse.find? fun r => r.url = before '?' url).filter
        fun r => method = httpMethodToString r.method).map Registration.cb) := by
  unfold Urls.execHandler
  rw [requestPath_eq h, Option.map_some, routes_apply]
  cases regs.reverse.find? fun r => r.url = before '?' url with
  | none => rfl
  | some r =>
    by_cases hmethod : method = httpMethodToString r.method
    · simp [hmethod]
    · simp [hmethod]

/-! ### Paths with one method -/

theorem httpMethodToString_inj {a b : Registration H}
    (h : httpMethodToString a.method = httpMethodToString b.method) : a.method = b.method := by
  cases a <;> cases b <;>
    first
    | rfl
    | exact absurd h (by simp [Registration.method, httpMethodToString])

theorem find_serves {regs : List (Registration H)} {path : List Char} (hpath : '?' ∉ path)
    (h : OneMethod regs) (method : String) :
    (regs.find? fun r => r.url = path).filter (fun r => method = httpMethodToString r.method) =
      regs.find? fun r => r.Serves path method := by
  cases hfind : regs.find? fun r => r.url = path with
  | none =>
    have hnone := List.find?_eq_none.mp hfind
    rw [Option.filter_none, eq_comm, List.find?_eq_none]
    intro r hr hserves
    exact hnone r hr (by simpa using (of_decide_eq_true hserves).1)
  | some c =>
    obtain ⟨hc, as, bs, rfl, has⟩ := List.find?_eq_some_iff_append.mp hfind
    rw [decide_eq_true_iff] at hc
    by_cases hmethod : method = httpMethodToString c.method
    · rw [Option.filter_some_pos (by simpa using hmethod), eq_comm,
        List.find?_eq_some_iff_append]
      refine ⟨by simpa using ⟨hc, hmethod⟩, as, bs, rfl, fun a ha => ?_⟩
      have hne := has a ha
      simp only [Bool.not_eq_true', decide_eq_false_iff_not] at hne ⊢
      exact fun hserves => hne hserves.1
    · rw [Option.filter_some_neg (by simpa using hmethod), eq_comm, List.find?_eq_none]
      intro r hr hserves
      obtain ⟨hurl, hname⟩ := of_decide_eq_true hserves
      have hsame := h r hr c (by simp) (by rw [hurl, hc]) (by rw [hurl]; exact hpath)
      exact hmethod (by rw [hname, hsame])

theorem OneMethod.of_subset {regs seen : List (Registration H)} (h : OneMethod regs)
    (hsub : seen ⊆ regs) : OneMethod seen :=
  fun a ha b hb => h a (hsub ha) b (hsub hb)

theorem execHandler_latest {regs : List (Registration H)} (h : OneMethod regs) {url : List Char}
    (hurl : Fits url) (method : String) :
    (routes regs).execHandler url method = some (latest regs (before '?' url) method) := by
  have hrev : OneMethod regs.reverse := h.of_subset fun r hr => List.mem_reverse.mp hr
  rw [execHandler_routes regs hurl, find_serves (not_mem_before _ _) hrev]
  rfl

theorem latest_append (regs : List (Registration H)) {r : Registration H} {path : List Char}
    {method : String} (h : ¬r.Serves path method) :
    latest (regs ++ [r]) path method = latest regs path method := by
  unfold latest
  rw [List.reverse_append, List.reverse_singleton, List.singleton_append,
    List.find?_cons_of_neg (by simpa using h)]

theorem latest_isSome {regs : List (Registration H)} {r : Registration H} (h : r ∈ regs)
    {path : List Char} {method : String} (hr : r.Serves path method) :
    (latest regs path method).isSome := by
  unfold latest
  rw [Option.isSome_map, List.find?_isSome]
  exact ⟨r, List.mem_reverse.mpr h, decide_eq_true hr⟩

/-- A handler is lost when its path is registered again for another method. -/
theorem execHandler_other {regs : List (Registration H)} {c : Registration H} {path : List Char}
    (hpath : '?' ∉ path) (hc : (regs.reverse.find? fun r => r.url = path) = some c)
    {method : HttpMethod} (hne : httpMethodToString method ≠ httpMethodToString c.method) :
    (routes regs).execHandler path (httpMethodToString method) = some none := by
  rw [execHandler_routes regs (fun h => absurd h hpath), before_of_not_mem hpath, hc,
    Option.filter_some_neg (by simpa using hne), Option.map_none]

theorem one_method_of_independent {regs : List (Registration H)} (h : Independent regs) :
    OneMethod regs := by
  have hlast : ∀ c, (∃ path, '?' ∉ path ∧ (regs.reverse.find? fun r => r.url = path) = some c) →
      ∀ d ∈ regs, d.url = c.url → d.method = c.method := by
    rintro c ⟨path, hpath, hc⟩ d hd hurl
    have hcurl : c.url = path := by simpa using List.find?_some hc
    refine httpMethodToString_inj (by_contra fun hne => ?_)
    have hnone := execHandler_other hpath hc hne
    rw [(h regs (List.prefix_refl _)).1 path _ (fun hmem => absurd hmem hpath),
      before_of_not_mem hpath, Option.some.injEq] at hnone
    have hsome := latest_isSome hd ⟨hurl.trans hcurl, rfl⟩
    rw [hnone] at hsome
    exact Bool.false_ne_true hsome
  intro a ha b hb hurl hpath
  have hfound : (regs.reverse.find? fun r => r.url = a.url).isSome :=
    List.find?_isSome.mpr ⟨a, List.mem_reverse.mpr ha, by simp⟩
  obtain ⟨c, hc⟩ := Option.isSome_iff_exists.mp hfound
  have hcurl : c.url = a.url := by simpa using List.find?_some hc
  rw [hlast c ⟨a.url, hpath, hc⟩ a ha hcurl.symm, hlast c ⟨a.url, hpath, hc⟩ b hb
    (by rw [hcurl, hurl])]

theorem independent_iff (regs : List (Registration H)) : Independent regs ↔ OneMethod regs := by
  constructor
  · exact one_method_of_independent
  · intro h seen hseen
    refine ⟨fun url method hurl => ?_, fun r hr url method hurl hother => ?_⟩
    · exact execHandler_latest (h.of_subset hseen.subset) hurl method
    · rw [execHandler_latest (h.of_subset hr.subset) hurl,
        execHandler_latest (h.of_subset hseen.subset) hurl, latest_append seen hother]

/-- The route of the GET handler is gone once a POST handler is registered for its path. -/
theorem get_route_lost :
    ¬Independent [.GET "/home".toList 0, .POST "/home".toList 1] := by
  intro h
  have hrun := (h _ (List.prefix_refl _)).1 "/home".toList "GET"
    fun _ => by decide
  exact absurd hrun (by decide +kernel)

end MSylar.Server
