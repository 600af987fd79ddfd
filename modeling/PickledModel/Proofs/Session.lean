import Mathlib
import PickledModel.Loader
import PickledModel.Proofs.Stream.Reaching

/-! A session opens one file after the other through loaders that share the
metadata they have got. The host is asked for the metadata by the first opening
whose capability is granted and whose stream decodes, and by no other one; that
answer, or empty metadata in its place, goes into every model from then on. The
induction over the session carries the metadata known so far: what the session
began with, or what the first such opening before this one has supplied. -/

set_option autoImplicit false

namespace PickledModel

def Event.isRequest : Event → Bool
  | .request _ => true
  | _ => false

def Opened.requests (o : Opened) : List Event := o.events.filter Event.isRequest

structure Visit where
  options : Options
  registry : Registry
  host : Host
  data : Bytes

namespace Visit

def loader (v : Visit) (known : Option Metadata) : Loader := ⟨v.options, v.registry, known⟩

def opened (v : Visit) (known : Option Metadata) : Opened := (v.loader known).openFile v.host v.data

def granted (v : Visit) : Except HostError Unit := v.host.require v.options.capability

def decoded (v : Visit) : Except LoadError Value := Machine.loads v.data v.registry

def decodes (v : Visit) : Bool := v.granted.isOk && v.decoded.isOk

def supplied (v : Visit) : Metadata :=
  ((v.host.request v.options.metadataResource).toOption.bind Metadata.parse?).getD .empty

/-- The names in the stream that no rule resolves, one for each call of one. -/
def unresolved (v : Visit) : List String :=
  Machine.unknowns v.registry ((Machine.ofBytes v.data).called v.registry)

def asked (v : Visit) : Event := .require v.options.capability

def told (v : Visit) : List Event :=
  v.unresolved.map fun name => .exception (.decode (.unresolved name)) false

def request (v : Visit) : Event := .request v.options.metadataResource

theorem fetchMetadata_eq_supplied (v : Visit) :
    Loader.fetchMetadata v.host v.options.metadataResource = v.supplied := by
  unfold Loader.fetchMetadata supplied
  cases v.host.request v.options.metadataResource <;> rfl

theorem diagnostics_eq_told (v : Visit) :
    ((Machine.ofBytes v.data).load v.registry).2.diagnostics.map
      (fun e => Event.exception (.decode e) false) = v.told := by
  rw [Machine.load_diagnostics, List.map_map]
  rfl

/-- The outcome of an opening where `known` is the metadata known before it: a
refused capability ends it with no other word to the host, a stream that does not
decode ends it with its reports and no request. -/
structure Outcome (v : Visit) (known : Option Metadata) (o : Opened) : Prop where
  refused : ∀ e, v.granted = .error e → o.result = .error (.capability e) ∧ o.events = [v.asked]
  undecoded : ∀ e, v.granted = .ok () → v.decoded = .error e →
    o.result = .error (.decode e) ∧ o.events = v.asked :: v.told
  decoded : ∀ root, v.granted = .ok () → v.decoded = .ok root →
    o.result = (v.loader known).assemble root (known.getD v.supplied) ∧
      o.events = v.asked :: v.told ++ if known.isSome then [] else [v.request]

def learned (v : Visit) (known : Option Metadata) : Option Metadata :=
  known <|> if v.decodes then some v.supplied else none

theorem opened_refused {v : Visit} {e : HostError} (known : Option Metadata)
    (h : v.granted = .error e) :
    v.opened known = ⟨.error (.capability e), v.loader known, [v.asked]⟩ := by
  unfold granted at h
  simp only [opened, Loader.openFile, loader, h, asked]

theorem opened_undecoded {v : Visit} {e : LoadError} (known : Option Metadata)
    (hgranted : v.granted = .ok ()) (h : v.decoded = .error e) :
    v.opened known = ⟨.error (.decode e), v.loader known, v.asked :: v.told⟩ := by
  have htold := v.diagnostics_eq_told
  unfold granted at hgranted
  unfold decoded Machine.loads at h
  simp only [opened, Loader.openFile, loader, hgranted, h, htold, asked]

theorem opened_decoded {v : Visit} {root : Value} (known : Option Metadata)
    (hgranted : v.granted = .ok ()) (h : v.decoded = .ok root) :
    v.opened known = ⟨(v.loader known).assemble root (known.getD v.supplied),
      v.loader (some (known.getD v.supplied)),
      v.asked :: v.told ++ if known.isSome then [] else [v.request]⟩ := by
  have htold := v.diagnostics_eq_told
  unfold granted at hgranted
  unfold decoded Machine.loads at h
  simp only [opened, Loader.openFile, loader, hgranted, h, htold, asked]
  cases known with
  | none => simp only [Loader.needMetadata, fetchMetadata_eq_supplied]; rfl
  | some m => rfl

/-- What one opening says to the host and what it gives. -/
theorem opened_outcome (v : Visit) (known : Option Metadata) : v.Outcome known (v.opened known) where
  refused e h := by
    rw [opened_refused known h]
    exact ⟨rfl, rfl⟩
  undecoded e hgranted h := by
    rw [opened_undecoded known hgranted h]
    exact ⟨rfl, rfl⟩
  decoded root hgranted h := by
    rw [opened_decoded known hgranted h]
    exact ⟨rfl, rfl⟩

/-- An opening is refused, or its stream does not decode, or it needs the metadata. -/
theorem cases_decodes (v : Visit) :
    (∃ e, v.granted = .error e ∧ v.decodes = false) ∨
    (∃ e, v.granted = .ok () ∧ v.decoded = .error e ∧ v.decodes = false) ∨
    ∃ root, v.granted = .ok () ∧ v.decoded = .ok root ∧ v.decodes = true := by
  unfold decodes
  cases hgranted : v.granted with
  | error e => exact .inl ⟨e, rfl, rfl⟩
  | ok u =>
    cases hdecoded : v.decoded with
    | error e => exact .inr (.inl ⟨e, rfl, rfl, rfl⟩)
    | ok root => exact .inr (.inr ⟨root, rfl, rfl, rfl⟩)

theorem opened_metadata (v : Visit) (known : Option Metadata) :
    (v.opened known).loader.metadata = v.learned known := by
  unfold learned
  obtain ⟨e, hgranted, hnot⟩ | ⟨e, hgranted, hdecoded, hnot⟩ | ⟨root, hgranted, hdecoded, hall⟩ :=
    v.cases_decodes
  · rw [opened_refused known hgranted, hnot]
    cases known <;> rfl
  · rw [opened_undecoded known hgranted hdecoded, hnot]
    cases known <;> rfl
  · rw [opened_decoded known hgranted hdecoded, hall]
    cases known <;> rfl

/-- The reports of an opening are no requests. -/
theorem requests_told (v : Visit) : v.told.filter Event.isRequest = [] := by
  rw [List.filter_eq_nil_iff]
  intro e he
  obtain ⟨name, -, rfl⟩ := List.mem_map.mp he
  exact Bool.false_ne_true

theorem requests_opened (v : Visit) (known : Option Metadata) :
    (v.opened known).requests =
      if known.isSome then [] else if v.decodes then [v.request] else [] := by
  unfold Opened.requests
  obtain ⟨e, hgranted, hnot⟩ | ⟨e, hgranted, hdecoded, hnot⟩ | ⟨root, hgranted, hdecoded, hall⟩ :=
    v.cases_decodes
  · rw [opened_refused known hgranted, hnot]
    cases known <;> rfl
  · rw [opened_undecoded known hgranted hdecoded, hnot]
    dsimp only
    rw [asked, List.filter_cons_of_neg Bool.false_ne_true, requests_told]
    cases known <;> rfl
  · rw [opened_decoded known hgranted hdecoded, hall]
    dsimp only
    rw [asked, List.cons_append, List.filter_cons_of_neg Bool.false_ne_true, List.filter_append,
      requests_told]
    cases known <;> rfl

end Visit

def session : Option Metadata → List Visit → List Opened
  | _, [] => []
  | known, v :: visits => v.opened known :: session (v.opened known).loader.metadata visits

/-- The metadata known after the visits of a session: what the store began with,
or what the first visit that decodes has supplied. -/
def knownAfter (store : Option Metadata) (visits : List Visit) : Option Metadata :=
  store <|> (visits.find? Visit.decodes).map Visit.supplied

theorem knownAfter_cons (store : Option Metadata) (v : Visit) (visits : List Visit) :
    knownAfter store (v :: visits) = knownAfter (v.learned store) visits := by
  unfold knownAfter Visit.learned
  rw [List.find?_cons]
  cases v.decodes with
  | false => simp
  | true => cases store <;> simp

/-- Of a whole session at most one request comes, from the first visit that decodes. -/
theorem requests_session (store : Option Metadata) (visits : List Visit) :
    (session store visits).flatMap Opened.requests =
      if store.isSome then [] else ((visits.find? Visit.decodes).map Visit.request).toList := by
  induction visits generalizing store with
  | nil => cases store <;> rfl
  | cons v visits ih =>
    rw [session, List.flatMap_cons, ih, v.requests_opened, v.opened_metadata, Visit.learned,
      List.find?_cons]
    cases store with
    | some m => rfl
    | none => cases v.decodes <;> simp

theorem session_append (store : Option Metadata) (before : List Visit) (v : Visit)
    (after : List Visit) :
    (session store (before ++ v :: after))[before.length]? =
      some (v.opened (knownAfter store before)) := by
  induction before generalizing store with
  | nil =>
    rw [List.nil_append, session, knownAfter]
    cases store <;> rfl
  | cons u before ih =>
    rw [List.cons_append, session, List.length_cons, List.getElem?_cons_succ, ih,
      u.opened_metadata, knownAfter_cons]

theorem knownAfter_eq_none {store : Option Metadata} {visits : List Visit} :
    knownAfter store visits = none ↔ store = none ∧ ∀ v ∈ visits, v.decodes = false := by
  unfold knownAfter
  cases store <;> simp

theorem Visit.requests_opened_ne_nil (v : Visit) (known : Option Metadata) :
    (v.opened known).requests ≠ [] ↔ known = none ∧ v.decodes := by
  rw [v.requests_opened]
  cases known <;> simp

/-- The protocol of a session with its host. Whatever the host answers, it gets at
most one request, and that from the first visit that decodes, unless the metadata
was there from the start; and each visit has the outcome due to it, with the
metadata known after the visits before it. -/
theorem session_protocol (store : Option Metadata) (visits : List Visit) :
    (session store visits).flatMap Opened.requests =
        (if store.isSome then [] else ((visits.find? Visit.decodes).map Visit.request).toList) ∧
      ∀ before v after, visits = before ++ v :: after →
        ∃ o, (session store visits)[before.length]? = some o ∧
          v.Outcome (knownAfter store before) o ∧
          (o.requests ≠ [] ↔ store = none ∧ (∀ u ∈ before, u.decodes = false) ∧ v.decodes) := by
  constructor
  · exact requests_session store visits
  · rintro before v after rfl
    refine ⟨_, session_append store before v after, v.opened_outcome _, ?_⟩
    rw [v.requests_opened_ne_nil, knownAfter_eq_none, and_assoc]

namespace FourVisits
open Machine

def refusal : HostError := .capabilityUnavailable "pickle"

def visit (answer : Except HostError Unit) (data : Bytes) : Visit where
  options := .standard
  registry := .empty
  host := ⟨fun _ => answer, fun _ => .ok "[]"⟩
  data := data

def calling (rest : Bytes) : Bytes := [0x28, 0x69, 0x61, 0x0a, 0x42, 0x0a] ++ rest

def object : Value := .object "a.B" .unresolved

def refused : Visit := visit (.error refusal) [0x4e, 0x2e]

def cut : Visit := visit (.ok ()) (calling [])

def bare : Visit := visit (.ok ()) [0x4e, 0x2e]

def whole : Visit := visit (.ok ()) (calling [0x2e])

theorem after?_calling {rest : Bytes} (h : rest = [] ∨ rest = [0x2e]) :
    (ofBytes (calling rest)).after? .empty 2 =
      some (midway (calling rest) 6 [.owned ⟨object, 1⟩] [] ["a.B"]) := by
  have hmark : (next .empty).start (ofBytes (calling rest)) =
      (.ok none, midway (calling rest) 1 [] [[]] []) := by
    rcases h with rfl | rfl <;> cbv
  have hfetch : (midway (calling rest) 1 [] [[]] []).cursor.fetch? =
      some (.inst, .callNamed "a.B", ⟨6, rest⟩) := by
    rcases h with rfl | rfl <;> cbv
  have hcall : Call.run .empty "a.B" [] = .ok ⟨object, some "a.B"⟩ := rfl
  rw [after?, hmark]
  dsimp only
  rw [after?_callNamed [] hfetch (by simp) rfl rfl hcall (by decide)]
  rfl

theorem load_cut : (ofBytes (calling [])).load .empty =
    (.error (.shortage ⟨6, 1, 0⟩), midway (calling []) 6 [.owned ⟨object, 1⟩] [] ["a.B"]) := by
  change run .empty 6 (ofBytes (calling [])) = _
  rw [run_of_after? (after?_calling (.inl rfl)) 4]
  cbv

theorem load_whole : (ofBytes (calling [0x2e])).load .empty =
    (.ok object, midway (calling [0x2e]) 7 [] [] ["a.B"]) := by
  change run .empty 7 (ofBytes (calling [0x2e])) = _
  rw [run_of_after? (after?_calling (.inr rfl)) 5]
  cbv

theorem decoded_cut : cut.decoded = .error (.shortage ⟨6, 1, 0⟩) := congrArg Prod.fst load_cut

theorem decoded_bare : bare.decoded = .ok .none := by cbv

theorem decoded_whole : whole.decoded = .ok object := congrArg Prod.fst load_whole

/-- Both visits that call `a.B` report it. -/
theorem told_calls : cut.told = [.exception (.decode (.unresolved "a.B")) false] ∧
    whole.told = [.exception (.decode (.unresolved "a.B")) false] := by
  rw [← cut.diagnostics_eq_told, ← whole.diagnostics_eq_told]
  exact ⟨congrArg (fun o => o.2.diagnostics.map fun e => Event.exception (.decode e) false) load_cut,
    congrArg (fun o => o.2.diagnostics.map fun e => Event.exception (.decode e) false) load_whole⟩

theorem decodes_cut : cut.decodes = false := by
  rw [Visit.decodes, decoded_cut]
  rfl

theorem decodes_bare : bare.decodes = true := by
  rw [Visit.decodes, decoded_bare]
  rfl

theorem find?_decodes (visits : List Visit) :
    (refused :: cut :: bare :: visits).find? Visit.decodes = some bare := by
  rw [List.find?_cons_of_neg Bool.false_ne_true, List.find?_cons_of_neg (by simp [decodes_cut]),
    List.find?_cons_of_pos decodes_bare]

theorem supplied_bare : bare.supplied = .empty := by cbv

end FourVisits

theorem session_protocol_four :
    let o := session none [FourVisits.refused, FourVisits.cut, FourVisits.bare, FourVisits.whole]
    o.flatMap Opened.requests = [.request "sklearn-metadata.json"] ∧
      ∃ a b c d, o[0]? = some a ∧ o[1]? = some b ∧ o[2]? = some c ∧ o[3]? = some d ∧
        a.result = .error (.capability FourVisits.refusal) ∧ a.events = [.require "pickle"] ∧
        b.result = .error (.decode (.shortage ⟨6, 1, 0⟩)) ∧
        b.events = [.require "pickle", .exception (.decode (.unresolved "a.B")) false] ∧
        c.result = .error (.root .none) ∧
        c.events = [.require "pickle", .request "sklearn-metadata.json"] ∧
        d.result = .ok (.ofObject "a.B" .unresolved .empty 10000) ∧
        d.events = [.require "pickle", .exception (.decode (.unresolved "a.B")) false] := by
  open FourVisits in
  obtain ⟨hrequests, hvisits⟩ := session_protocol none [refused, cut, bare, whole]
  obtain ⟨a, ha, houta, -⟩ := hvisits [] refused [cut, bare, whole] rfl
  obtain ⟨b, hb, houtb, -⟩ := hvisits [refused] cut [bare, whole] rfl
  obtain ⟨c, hc, houtc, hrequest⟩ := hvisits [refused, cut] bare [whole] rfl
  obtain ⟨d, hd, houtd, -⟩ := hvisits [refused, cut, bare] whole [] rfl
  rw [find?_decodes] at hrequests
  obtain ⟨hresulta, heventsa⟩ := houta.refused refusal rfl
  obtain ⟨hresultb, heventsb⟩ := houtb.undecoded _ rfl decoded_cut
  obtain ⟨hresultc, heventsc⟩ := houtc.decoded .none rfl decoded_bare
  obtain ⟨hresultd, heventsd⟩ := houtd.decoded object rfl decoded_whole
  have hknown : knownAfter none [refused, cut] = none := by
    rw [knownAfter_eq_none]
    exact ⟨rfl, by simp [decodes_cut, show refused.decodes = false from rfl]⟩
  have hmetadata : knownAfter none [refused, cut, bare] = some .empty := by
    rw [knownAfter, find?_decodes, Option.map_some, supplied_bare]
    rfl
  have htold : bare.told = [] := by cbv
  rw [hknown, htold] at heventsc
  rw [hmetadata, told_calls.2] at heventsd
  rw [told_calls.1] at heventsb
  rw [hmetadata] at hresultd
  exact ⟨hrequests, a, b, c, d, ha, hb, hc, hd, hresulta, heventsa, hresultb, heventsb, hresultc,
    heventsc, hresultd, heventsd⟩

end PickledModel
