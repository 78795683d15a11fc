/-
  Playground.Rooms.Query — the room that Spring's `extractRoom` reads from a
  connection's query (`WebSocketChatHandler.java`).

  The query is percent-decoded before it is split, so an escaped `&` or `=` splits it as
  a written one does. `extractRoom` takes the first piece between `&`s that splits at `=`
  into `room` and a value, which may be a piece of another parameter.
  - `names_iff`: the pieces that name a room.
  - `registered_iff`: a connection is registered under the room it asks for, reached by a
    broadcast to it and not by one to another room, just when the name has neither `&`
    nor `=` nor the channels' prefix in it, no earlier piece names another, and the other
    room is not the same with the prefix put in.
-/

import Playground.Lib.Percent
import Playground.Rooms.ChatHandler

namespace Playground.Rooms.Spring

open Playground.Lib

/-! ## A client's query -/

/-- A query parameter, with or without a value. -/
structure Param where
  name : String
  value : Option String
  deriving DecidableEq, Repr

/-- The parameter's text. -/
def Param.text (p : Param) : List Char := p.name.toList ++ (p.value.elim [] fun v => '=' :: v.toList)

/-- The parameter percent-encoded, as it stands in the query. -/
def Param.encoded (p : Param) : List Char :=
  Percent.encode p.name.toList ++ (p.value.elim [] fun v => '=' :: Percent.encode v.toList)

/-- The query that asks for room `r` among other parameters. -/
def params (before : List Param) (r : String) (after : List Param) : List Param :=
  before ++ ⟨"room", some r⟩ :: after

def rawQuery (ps : List Param) : List Char := List.intercalate ['&'] (ps.map Param.encoded)

/-- `URI.getQuery`. -/
def getQuery (raw : List Char) : Option String := (Percent.decode raw).map String.ofList

theorem Param.standsFor (p : Param) : Percent.StandsFor p.encoded p.text := by
  refine (Percent.standsFor_encode _).append ?_
  cases p.value with
  | none => exact Percent.standsFor_nil
  | some v => exact (Percent.standsFor_plain (by decide)).append (Percent.standsFor_encode _)

/-- The query is decoded to the parameters' texts between `&`s. -/
theorem getQuery_rawQuery (ps : List Param) :
    getQuery (rawQuery ps) = some (String.ofList (List.intercalate ['&'] (ps.map Param.text))) := by
  have h : Percent.StandsFor (rawQuery ps) (List.intercalate ['&'] (ps.map Param.text)) := by
    induction ps with
    | nil => exact Percent.standsFor_nil
    | cons p ps ih =>
      cases ps with
      | nil => simpa [rawQuery] using p.standsFor
      | cons q ps =>
        rw [rawQuery, List.map_cons, List.map_cons, List.map_cons, List.intercalate_cons_cons, List.map_cons,
          List.intercalate_cons_cons]
        exact (p.standsFor.append (Percent.standsFor_plain (by decide))).append ih
  rw [getQuery, h.decode, Option.map_some]

/-- The pieces of a list of parameters between the `&`s of the decoded query. -/
def pieces (ps : List Param) : List (List Char) := ps.flatMap fun p => p.text.splitOn '&'

theorem splitOn_texts (ps : List Param) (h : ps ≠ []) :
    (List.intercalate ['&'] (ps.map Param.text)).splitOn '&' = pieces ps := by
  induction ps with
  | nil => exact absurd rfl h
  | cons p ps ih =>
    cases ps with
    | nil => simp [pieces]
    | cons q ps =>
      rw [List.map_cons, List.map_cons, List.intercalate_cons_cons, List.append_assoc, List.singleton_append,
        List.splitOn_append_cons_self, ← List.map_cons, ih (by simp)]
      rfl

/-! ## The pieces that name a room -/

/-- The piece reads `room=v`, with `=`s behind it or none. -/
def Names (piece v : List Char) : Prop :=
  v ≠ [] ∧ '=' ∉ v ∧ ∃ k, piece = "room=".toList ++ (v ++ List.replicate k '=')

/-- The first of the pieces that names a room names `v`. -/
def FirstNamed (l : List (List Char)) (v : List Char) : Prop :=
  ∃ l₁ piece l₂, l = l₁ ++ piece :: l₂ ∧ Names piece v ∧ ∀ q ∈ l₁, ∀ w, ¬ Names q w

variable {piece v : List Char} {l : List (List Char)}

theorem names_iff : roomParam piece = some v ↔ Names piece v := by
  have hroom : roomParam piece = some v ↔ split '=' piece = ["room".toList, v] := by
    unfold roomParam
    split
    · rename_i name value h
      rw [h]
      by_cases hn : name = "room".toList <;> simp [hn]
    · rename_i h
      simp only [reduceCtorEq, false_iff]
      exact fun he => h _ _ he
  rw [hroom, split_eq_pair, Names]
  constructor
  · rintro ⟨hv, -, hv', k, rfl⟩
    exact ⟨hv, hv', k, rfl⟩
  · rintro ⟨hv, hv', k, rfl⟩
    exact ⟨hv, by decide, hv', k, rfl⟩

theorem not_names_nil : ¬ Names [] v := by
  rintro ⟨-, -, k, h⟩
  simp at h

theorem roomParam_eq_none : roomParam piece = none ↔ ∀ w, ¬ Names piece w := by
  simp only [← names_iff, Option.eq_none_iff_forall_ne_some, ne_eq]

theorem firstNamed_iff : l.findSome? roomParam = some v ↔ FirstNamed l v := by
  simp only [List.findSome?_eq_some_iff, names_iff, roomParam_eq_none, FirstNamed]

/-! ## What `extractRoom` reads -/

/-- The first of all pieces that names a room. -/
theorem extractRoom_params (before : List Param) (r : String) (after : List Param) :
    extractRoom (getQuery (rawQuery (params before r after))) =
      (((pieces (params before r after)).findSome? roomParam).map String.ofList).getD "default" := by
  rw [getQuery_rawQuery, extractRoom, String.toList_ofList,
    findSome?_split (roomParam_eq_none.mpr fun _ => not_names_nil), splitOn_texts _ (by simp [params])]

/-- No room that is read has a separator in its name. -/
theorem FirstNamed.plain {ps : List Param} (h : FirstNamed (pieces ps) v) : '&' ∉ v ∧ '=' ∉ v := by
  obtain ⟨l₁, piece, l₂, hl, ⟨-, hv, k, rfl⟩, -⟩ := h
  refine ⟨fun hamp => ?_, hv⟩
  have hmem : "room=".toList ++ (v ++ List.replicate k '=') ∈ pieces ps := by
    rw [hl]
    exact List.mem_append_right _ List.mem_cons_self
  obtain ⟨p, -, hp⟩ := List.mem_flatMap.mp hmem
  refine not_mem_of_mem_splitOn hp ?_
  exact List.mem_append_right _ (List.mem_append_left _ hamp)

/-- A name without separators is one piece, and it names itself. -/
theorem pieces_room {r : String} (hr : r ≠ "") (hamp : '&' ∉ r.toList) (heq : '=' ∉ r.toList) :
    (pieces [⟨"room", some r⟩]).findSome? roomParam = some r.toList := by
  have htext : (⟨"room", some r⟩ : Param).text = "room=".toList ++ r.toList := by
    simp [Param.text]
  have hsplit : pieces [⟨"room", some r⟩] = ["room=".toList ++ r.toList] := by
    rw [pieces, List.flatMap_cons, List.flatMap_nil, List.append_nil, htext, List.splitOn_eq_singleton]
    rw [List.mem_append, not_or]
    exact ⟨by decide, hamp⟩
  have hnames : Names ("room=".toList ++ r.toList) r.toList := by
    refine ⟨fun h => hr (String.toList_inj.mp h), heq, 0, ?_⟩
    rw [List.replicate_zero, List.append_nil]
  rw [hsplit, List.findSome?_cons, names_iff.mpr hnames]

/-- What is found among all pieces: in those before the room's parameter, then in its own. -/
theorem findSome?_params (before : List Param) (r : String) (after : List Param) :
    (pieces (params before r after)).findSome? roomParam = ((pieces before).findSome? roomParam).or
      (((pieces [⟨"room", some r⟩]).findSome? roomParam).or ((pieces after).findSome? roomParam)) := by
  have hsplit : pieces (params before r after) = pieces before ++ (pieces [⟨"room", some r⟩] ++ pieces after) := by
    simp [pieces, params]
  rw [hsplit, List.findSome?_append, List.findSome?_append]

theorem extractRoom_eq_iff (before : List Param) {r : String} (after : List Param) (hr : r ≠ "") :
    extractRoom (getQuery (rawQuery (params before r after))) = r ↔
      '&' ∉ r.toList ∧ '=' ∉ r.toList ∧ ∀ v, FirstNamed (pieces before) v → v = r.toList := by
  rw [extractRoom_params]
  constructor
  · intro h
    -- what is read has no separator in it, nor has the default
    have hplain : '&' ∉ r.toList ∧ '=' ∉ r.toList := by
      cases hf : (pieces (params before r after)).findSome? roomParam with
      | none =>
        rw [hf] at h
        subst h
        decide
      | some w =>
        rw [hf] at h
        subst h
        rw [Option.map_some, Option.getD_some, String.toList_ofList]
        exact (firstNamed_iff.mp hf).plain
    refine ⟨hplain.1, hplain.2, fun v hv => ?_⟩
    rw [findSome?_params, firstNamed_iff.mpr hv, Option.some_or] at h
    rw [← h, Option.map_some, Option.getD_some, String.toList_ofList]
  · rintro ⟨hamp, heq, hbefore⟩
    rw [findSome?_params, pieces_room hr hamp heq]
    cases hf : (pieces before).findSome? roomParam with
    | none => exact String.ofList_toList
    | some v =>
      rw [hbefore v (firstNamed_iff.mp hf)]
      exact String.ofList_toList

/-! ## Registration and broadcasts -/

section Registration

variable {W : Type} [DecidableEq W]

/-- The session is in no room. -/
def Handler.Absent (h : Handler W) (ws : W) : Prop := ∀ room, ws ∉ h.sessions room

/-- The session is in the room that `onMessage` takes the request's broadcast for. -/
def Handler.Reached (h : Handler W) (nodeId : String) (req : BroadcastRequest) (ws : W) : Prop :=
  ws ∈ h.sessions (onMessage (broadcast nodeId (some req))).1

/-- A connection that asks for room `r` is registered there and nowhere else; a broadcast
    posted with that room reaches it, and one posted with the other room does not. -/
def Agrees (nodeId : String) (h : Handler W) (ws : W) (before : List Param) (r : String) (after : List Param)
    (other : String) : Prop :=
  let connected := (h.afterConnectionEstablished nodeId ws (getQuery (rawQuery (params before r after)))).1
  (∀ room, ws ∈ connected.sessions room ↔ room = r) ∧
    (∀ sender content, connected.Reached nodeId (.make (some r) sender content) ws) ∧
    (other ≠ r → ∀ sender content, ¬ connected.Reached nodeId (.make (some other) sender content) ws)

/-- A new session is in the room that was extracted. -/
theorem mem_connected {h : Handler W} {ws : W} (habs : h.Absent ws) (nodeId : String) (query : Option String)
    (room : String) :
    ws ∈ (h.afterConnectionEstablished nodeId ws query).1.sessions room ↔ room = extractRoom query := by
  by_cases hroom : room = extractRoom query
  · subst hroom
    simp [Handler.afterConnectionEstablished, Handler.sessions]
  · simp only [Handler.afterConnectionEstablished, Handler.sessions, Function.update_of_ne hroom, hroom, iff_false]
    exact habs room

omit [DecidableEq W] in
/-- A broadcast goes to the room whose name is left of its own without the prefix. -/
theorem Handler.reached_make {h : Handler W} {ws : W} {room : String} (hroom : isBlank room = false) (nodeId : String)
    (sender content : Option String) : h.Reached nodeId (.make (some room) sender content) ws ↔
      ws ∈ h.sessions (replaceAll (channelOf room) channelPrefix) := by
  have hid : (BroadcastRequest.make (some room) sender content).roomId = room := by
    simp [BroadcastRequest.make, BroadcastRequest.orElse, hroom]
  show ws ∈ h.sessions (replaceAll (channelOf (BroadcastRequest.make (some room) sender content).roomId) channelPrefix) ↔ _
  rw [hid]

theorem registered_iff (nodeId : String) {h : Handler W} {ws : W} (habs : h.Absent ws) (before : List Param)
    {r : String} (after : List Param) (hr : isBlank r = false) {other : String} (hother : isBlank other = false) :
    Agrees nodeId h ws before r after other ↔
      '&' ∉ r.toList ∧ '=' ∉ r.toList ∧ (∀ v, FirstNamed (pieces before) v → v = r.toList) ∧
        ¬ channelPrefix.toList <:+: r.toList ∧
        (other ≠ r → ¬ Inserted channelPrefix.toList r.toList other.toList) := by
  have hne : r ≠ "" := by
    rintro rfl
    cases hr
  have hroom := extractRoom_eq_iff before after hne
  have hmem := mem_connected habs nodeId (getQuery (rawQuery (params before r after)))
  constructor
  · rintro ⟨hin, hown, hno⟩
    have hr' := ((hmem r).mp ((hin r).mpr rfl)).symm
    obtain ⟨hamp, heq, hbefore⟩ := hroom.mp hr'
    have honce : ¬ channelPrefix.toList <:+: r.toList :=
      replaceAll_channelOf.mp ((hin _).mp ((Handler.reached_make hr nodeId none none).mp (hown none none)))
    refine ⟨hamp, heq, hbefore, honce, fun ho hinserted => ?_⟩
    refine hno ho none none ((Handler.reached_make hother nodeId none none).mpr ((hin _).mpr ?_))
    exact (replaceAll_channelOf_iff honce).mpr hinserted
  · rintro ⟨hamp, heq, hbefore, honce, hno⟩
    have hin : ∀ room, ws ∈ (h.afterConnectionEstablished nodeId ws
        (getQuery (rawQuery (params before r after)))).1.sessions room ↔ room = r := by
      intro room
      rw [hmem, hroom.mpr ⟨hamp, heq, hbefore⟩]
    refine ⟨hin, fun sender content => ?_, fun ho sender content hreached => ?_⟩
    · rw [Handler.reached_make hr, hin]
      exact replaceAll_channelOf.mpr honce
    · rw [Handler.reached_make hother, hin] at hreached
      exact hno ho ((replaceAll_channelOf_iff honce).mp hreached)

end Registration

/-- A node without connections. -/
def emptyHandler : Handler Nat := ⟨fun _ => none, fun _ => none⟩

theorem emptyHandler_absent (ws : Nat) : emptyHandler.Absent ws := fun _ => List.not_mem_nil

/-- A parameter whose value has an equals sign does not stand in the way. -/
theorem registered_general : Agrees "node-1" emptyHandler 1 [⟨"token", some "a=b"⟩] "general" [] "lobby" := by
  have hbefore : (pieces [⟨"token", some "a=b"⟩]).findSome? roomParam = none := by decide
  refine (registered_iff "node-1" (emptyHandler_absent 1) [⟨"token", some "a=b"⟩] [] (by decide) (by decide)).mpr
    ⟨by decide, by decide, fun v hv => ?_, by decide, fun _ hinserted => ?_⟩
  · cases hbefore.symm.trans (firstNamed_iff.mpr hv)
  · exact absurd ((replaceAll_channelOf_iff (by decide)).mpr hinserted) (by decide)

/-- The room `R&D` is read as the room `R`. -/
theorem ampersand_lost : extractRoom (getQuery (rawQuery (params [] "R&D" []))) = "R" ∧
    ¬ Agrees "node-1" emptyHandler 1 [] "R&D" [] "R" := by
  have hroom : extractRoom (getQuery (rawQuery (params [] "R&D" []))) = "R" := by
    rw [getQuery_rawQuery]
    decide
  refine ⟨hroom, fun hagree => ?_⟩
  have := (mem_connected (emptyHandler_absent 1) "node-1" _ _).mp ((hagree.1 "R&D").mpr rfl)
  rw [hroom] at this
  exact absurd this (by decide)

end Playground.Rooms.Spring
