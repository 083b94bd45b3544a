import SpaceSec.Reporting
import SpaceSec.Library.Http
import SpaceSec.Library.Json

namespace SpaceSec

namespace DashboardClient

open Python

def upperHexDigit (d : ℕ) : Char :=
  if d < 10 then Char.ofNat (0x30 + d) else Char.ofNat (0x41 + d - 10)

/-- The low 16 bits as four upper-case hexadecimal digits. -/
def sessionText (id : UInt32) : List Char :=
  [id.toNat / 4096 % 16, id.toNat / 256 % 16, id.toNat / 16 % 16, id.toNat % 16].map upperHexDigit

def eventMembers (event : SecurityEvent) : List Json.Member :=
  [("type".toList, .text event.type.toList), ("reason".toList, .text event.reason.toList),
    ("session_id".toList, .text (sessionText event.sessionId)),
    ("latency_ms".toList, .int event.latencyMs.toInt),
    ("severity".toList, .text event.severity.toList)]

/-- What the text of an event says. -/
def eventDict (event : SecurityEvent) : Dict :=
  [(str "type", .str (str event.type)), (str "reason", .str (str event.reason)),
    (str "session_id", .str ((sessionText event.sessionId).map Char.toNat)),
    (str "latency_ms", .int event.latencyMs.toInt), (str "severity", .str (str event.severity))]

theorem upperHexDigit_eq {d : ℕ} (hd : d < 16) : d.digitChar.toUpper = upperHexDigit d := by
  have key : ∀ i : Fin 16, (i : ℕ).digitChar.toUpper = upperHexDigit i := by decide
  exact key ⟨d, hd⟩

theorem hexSession_eq (id : UInt32) : hexSession id = sessionText id := by
  have hmod : (id &&& 0xFFFF).toNat = id.toNat % 65536 := by
    rw [UInt32.toNat_and]
    exact Nat.and_two_pow_sub_one_eq_mod _ 16
  have hpad : List.replicate (4 - (Nat.toDigits 16 (id.toNat % 65536)).length) '0' ++
      Nat.toDigits 16 (id.toNat % 65536) =
        [id.toNat / 4096 % 16, id.toNat / 256 % 16, id.toNat / 16 % 16, id.toNat % 16].map
          Nat.digitChar := by
    rw [OutputStream.pad_succ (by decide), OutputStream.pad_succ (by decide),
      OutputStream.pad_succ (by decide), OutputStream.pad_one (by omega)]
    have h₁ : id.toNat % 65536 / 16 / 16 / 16 = id.toNat / 4096 % 16 := by omega
    have h₂ : id.toNat % 65536 / 16 / 16 % 16 = id.toNat / 256 % 16 := by omega
    have h₃ : id.toNat % 65536 / 16 % 16 = id.toNat / 16 % 16 := by omega
    have h₄ : id.toNat % 65536 % 16 = id.toNat % 16 := by omega
    rw [h₁, h₂, h₃, h₄]
    rfl
  have hupper : List.replicate (4 - (Nat.toDigits 16 (id.toNat % 65536)).length) '0' ++
      (Nat.toDigits 16 (id.toNat % 65536)).map Char.toUpper = sessionText id := by
    have hmap := congrArg (List.map Char.toUpper) hpad
    rw [List.map_append, List.map_replicate, List.map_map] at hmap
    refine Eq.trans hmap (List.map_congr_left ?_)
    intro d hd
    apply upperHexDigit_eq
    simp only [List.mem_cons, List.not_mem_nil, or_false] at hd
    omega
  rw [← hupper]
  simp only [hexSession, OutputStream.putNat, OutputStream.put, OutputStream.digits,
    OutputStream.uppercase, OutputStream.hex, OutputStream.setw, OutputStream.setfill, hmod,
    if_true, List.nil_append, List.length_map]

theorem putInt64_text (s : OutputStream) (n : Int64) (hradix : s.radix = 10) :
    s.putInt64 n = s.put (Json.intText n.toInt) := by
  rw [OutputStream.putInt64, if_pos hradix, Json.intText]
  simp only [Int64.lt_iff_toInt_lt]
  rfl

theorem eventBody_eq (event : SecurityEvent) : eventBody event =
    Json.object ("type".toList, .text event.type.toList) (eventMembers event).tail := by
  simp only [eventBody, putInt64_text, OutputStream.putString, OutputStream.put, hexSession_eq]
  simp [Json.object, eventMembers, Json.Member.render, Json.Scalar.render]

theorem dictOf_eventMembers (event : SecurityEvent) :
    Json.dictOf (eventMembers event) = eventDict event := rfl

/-- Text that C++ and JSON write as it is, one byte a character. -/
def Clean (s : List Char) : Prop := ∀ c ∈ s, c.toNat < 0x80 ∧ Json.Plain c

instance : DecidablePred Clean := fun s ↦ List.decidableBAll _ s

structure CleanEvent (event : SecurityEvent) : Prop where
  type : Clean event.type.toList
  reason : Clean event.reason.toList
  severity : Clean event.severity.toList

theorem clean_sessionText (id : UInt32) : Clean (sessionText id) := by
  have key : ∀ i : Fin 16, (upperHexDigit i).toNat < 0x80 ∧ 0x20 ≤ (upperHexDigit i).toNat ∧
      upperHexDigit i ≠ '"' ∧ upperHexDigit i ≠ '\\' := by decide
  intro c hc
  obtain ⟨d, hd, rfl⟩ := List.mem_map.mp hc
  refine key ⟨d, ?_⟩
  simp only [List.mem_cons, List.not_mem_nil, or_false] at hd
  omega

theorem writable_latency (latencyMs : Int64) : (Json.Scalar.int latencyMs.toInt).Writable := by
  have hlow := latencyMs.le_toInt
  have hhigh := latencyMs.toInt_lt
  have hlength : (Nat.toDigits 10 latencyMs.toInt.natAbs).length ≤ 19 :=
    (Nat.length_toDigits_le_iff (by decide) (by decide)).mpr (by omega)
  exact hlength.trans (by decide)

theorem CleanEvent.members {event : SecurityEvent} (h : CleanEvent event) :
    ∀ m ∈ eventMembers event, Clean m.1 ∧ m.2.Writable ∧ ∀ c ∈ m.2.render, c.toNat < 0x80 := by
  have htext {s : List Char} (hs : Clean s) : (Json.Scalar.text s).Writable ∧
      ∀ c ∈ (Json.Scalar.text s).render, c.toNat < 0x80 := by
    refine ⟨fun c hc ↦ (hs c hc).2, ?_⟩
    intro c hc
    simp only [Json.Scalar.render, List.cons_append, List.mem_cons, List.mem_append,
      List.not_mem_nil, or_false] at hc
    rcases hc with rfl | hc | rfl
    · decide
    · exact (hs c hc).1
    · decide
  have hint : ∀ c ∈ (Json.Scalar.int event.latencyMs.toInt).render, c.toNat < 0x80 :=
    Json.forall_mem_intText (by decide)
      (fun c hc ↦ (Decimal.isDigit_range hc).2.trans (by decide)) _
  have hkeys : Clean "type".toList ∧ Clean "reason".toList ∧ Clean "session_id".toList ∧
      Clean "latency_ms".toList ∧ Clean "severity".toList := by decide
  obtain ⟨htype, hreason, hsession, hlatency, hseverity⟩ := hkeys
  intro m hm
  simp only [eventMembers, List.mem_cons, List.not_mem_nil, or_false] at hm
  rcases hm with rfl | rfl | rfl | rfl | rfl
  · exact ⟨htype, htext h.type⟩
  · exact ⟨hreason, htext h.reason⟩
  · exact ⟨hsession, htext (clean_sessionText _)⟩
  · exact ⟨hlatency, writable_latency _, hint⟩
  · exact ⟨hseverity, htext h.severity⟩

theorem CleanEvent.ascii {event : SecurityEvent} (h : CleanEvent event) :
    ∀ c ∈ eventBody event, c.toNat < 0x80 := by
  rw [eventBody_eq]
  refine @Json.forall_mem_object (fun c ↦ c.toNat < 0x80) (Http.Printable.lt (by decide)) _ _ ?_
  intro m hm
  obtain ⟨hkey, -, hvalue⟩ := h.members m hm
  exact ⟨fun c hc ↦ (hkey c hc).1, hvalue⟩

theorem CleanEvent.loads {event : SecurityEvent} (h : CleanEvent event) :
    Json.loads (eventBody event) = some (.dict (eventDict event)) := by
  rw [eventBody_eq, ← dictOf_eventMembers]
  apply Json.loads_object
  intro m hm
  obtain ⟨hkey, hvalue, -⟩ := h.members m hm
  exact ⟨fun c hc ↦ (hkey c hc).2, hvalue⟩

/-- What `main` passes to `dashboard_init`. -/
def dashboardHost : String := "192.168.10.10"

def dashboardPort : Int32 := 5000

/-- The request that `post_security_event` writes, as a server reads it. -/
def eventHttp (event : SecurityEvent) : Http.Request where
  method := "POST".toList
  target := "/api/event".toList
  version := "HTTP/1.1".toList
  fields := [("Host".toList, "192.168.10.10:5000".toList),
    ("Content-Type".toList, "application/json".toList),
    ("Content-Length".toList, Nat.toDigits 10 (Http.encodeUtf8 (eventBody event)).length),
    ("Connection".toList, "close".toList)]
  body := Http.encodeUtf8 (eventBody event)

theorem eventHttp_body (event : SecurityEvent) :
    (eventHttp event).body = Http.encodeUtf8 (eventBody event) := by
  rw [eventHttp]

theorem eventRequest_eq {event : SecurityEvent} (hevent : ∀ c ∈ eventBody event, c.toNat < 0x80) :
    eventRequest dashboardHost dashboardPort event = (eventHttp event).head ++ eventBody event := by
  have hport : dashboardPort.toInt64.toInt = 5000 := by decide
  have hdigits : Nat.toDigits 10 5000 = ['5', '0', '0', '0'] := by decide
  simp only [eventRequest, putInt64_text, OutputStream.putString, OutputStream.put,
    OutputStream.putNat, OutputStream.digits, hport, Json.intText, dashboardHost]
  simp [Http.Request.head, eventHttp, Http.fieldsText, Http.fieldText, Http.crlf,
    Http.length_encodeUtf8 hevent, hdigits]

theorem eventHttp_wellFormed (event : SecurityEvent) : (eventHttp event).WellFormed where
  printable := show Http.Printable
    ("POST".toList ++ ' ' :: ("/api/event".toList ++ ' ' :: "HTTP/1.1".toList)) by decide
  words := show ∀ word ∈ ["POST".toList, "/api/event".toList, "HTTP/1.1".toList], ' ' ∉ word by
    decide
  fields := by
    have hlength : Http.FieldWellFormed ("Content-Length".toList,
        Nat.toDigits 10 (Http.encodeUtf8 (eventBody event)).length) := by
      refine ⟨?_, show ':' ∉ "Content-Length".toList by decide, Http.trim_toDigits _⟩
      have hname : Http.Printable ("Content-Length".toList ++ [':'] ++ [' ']) := by decide
      intro c hc
      rw [Http.fieldText, List.append_cons, List.append_cons] at hc
      rcases List.mem_append.mp hc with hc | hc
      · exact hname c hc
      · exact Http.printable_toDigits _ c hc
    intro field hfield
    simp only [eventHttp, List.mem_cons, List.not_mem_nil, or_false] at hfield
    rcases hfield with rfl | rfl | rfl | rfl
    · decide
    · decide
    · exact hlength
    · decide
  body := by
    have hname : ("Content-Length".toList.map Char.toLower == "content-length".toList) = true := by
      decide
    rw [eventHttp_body, eventHttp]
    apply Http.contentLength_toDigits
    rw [List.find?_cons_of_neg (by decide), List.find?_cons_of_neg (by decide)]
    apply List.find?_cons_of_pos
    exact hname

/-- The bytes that `post_security_event` hands to `send`, if it comes to that. -/
def written (event : SecurityEvent) : Bytes :=
  Http.encodeUtf8 (eventRequest dashboardHost dashboardPort event)

theorem written_of_post {event : SecurityEvent} {peer : Peer} {fuel : ℕ} {posted : Posted}
    (h : postSecurityEvent dashboardHost dashboardPort event peer fuel =
      some (.returned posted)) : posted.sent <+: written event := by
  rcases returned_cases h with ⟨-, waitedUs, -, rfl⟩ | ⟨-, -, hsent, -⟩
  · exact List.nil_prefix
  · rw [hsent]
    exact List.take_prefix _ _

theorem CleanEvent.written_eq {event : SecurityEvent} (h : CleanEvent event) :
    written event = Http.encodeUtf8 (eventHttp event).head ++ (eventHttp event).body := by
  rw [written, eventRequest_eq h.ascii, Http.encodeUtf8_append, eventHttp_body]

theorem CleanEvent.readRequest {event : SecurityEvent} (h : CleanEvent event) :
    Http.readRequest (written event) = some (eventHttp event) := by
  have hread := Http.readRequest_head (eventHttp_wellFormed event) []
  rwa [List.append_nil, ← h.written_eq] at hread

end DashboardClient

end SpaceSec
