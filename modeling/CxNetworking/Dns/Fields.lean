import CxNetworking.Dns.ReaderCalls
import CxNetworking.Dns.RoundTrip

/-! Any sequence of fields, written and read back. A final '.' of a name is not on the
wire, so such a name comes back without it; everything else comes back as it was. -/
namespace CxNetworking.Dns
open Reader

def Writer.put (w : Writer) : Value → Option Writer
  | .u8 v => some (w.writeU8 v)
  | .u16 v => some (w.writeU16 v)
  | .u32 v => some (w.writeU32 v)
  | .bytes data => some (w.writeBytes data)
  | .name name => if (w.writeName name).1 then some (w.writeName name).2 else none

def Writer.putAll (w : Writer) : List Value → Option Writer
  | [] => some w
  | f :: fields => (w.put f).bind fun w => w.putAll fields

def Value.call : Value → ReaderCall
  | .u8 _ => .readU8
  | .u16 _ => .readU16
  | .u32 _ => .readU32
  | .bytes data => .readBytes data.length
  | .name _ => .readName

def Reader.callAll (r : Reader) : List ReaderCall → List (Option Value) × Reader
  | [] => ([], r)
  | c :: cs => ((r.call c).1 :: ((r.call c).2.callAll cs).1, ((r.call c).2.callAll cs).2)

def Value.stripped : Value → Value
  | .name text => .name (stripDot text)
  | f => f

/-- The cursor of a safe reader over `d` stands at `p`. -/
structure Reader.At (d : Bytes) (p : Nat) (r : Reader) : Prop where
  safe : r.Safe
  buffer : r.buffer = d
  position : r.position = p

theorem Reader.Takes.at {α : Type} {r : Reader} {n : Nat} {v : α} {out : Option α × Reader} {pre enc post : Bytes}
    (hr : r.At (pre ++ (enc ++ post)) pre.length) (ht : Takes r n v out) (hn : enc.length = n) :
    out.1 = some v ∧ out.2.At (pre ++ (enc ++ post)) (pre.length + enc.length) := by
  have hl : r.position + n ≤ r.buffer.length := by
    rw [hr.position, hr.buffer, ← hn]
    simp only [List.length_append]
    omega
  obtain ⟨hsafe, hbuf, hval⟩ := ht.spec hr.safe
  refine ⟨(hval v).mpr ⟨hl, rfl⟩, hsafe, hbuf.trans hr.buffer, ?_⟩
  rw [ht.position hl, hr.position, hn]

def encode32 (v : UInt32) : Bytes :=
  [(v >>> 24).toUInt8, (v >>> 16).toUInt8, (v >>> 8).toUInt8, (v &&& 0xFF).toUInt8]

theorem writeU32_buffer (w : Writer) (v : UInt32) : (w.writeU32 v).buffer = w.buffer ++ encode32 v := by
  simp [Writer.writeU32, Writer.writeU8, encode32]

theorem word32_encode32 (v : UInt32) (pre post : Bytes) :
    word32 (pre ++ (encode32 v ++ post)) pre.length = v := by
  have hbytes : word32 (pre ++ (encode32 v ++ post)) pre.length =
      (encode32 v).foldl (fun (w : UInt32) b => w <<< 8 ||| b.toUInt32) 0 := by
    simp [word32, encode32]
  rw [hbytes]
  exact BigEndian.join32_split v

/-- The bytes a written field adds to the buffer, wherever they stand, are read as the field. -/
theorem put_call {f : Value} {w w' : Writer} (h : w.put f = some w') :
    ∃ enc, w'.buffer = w.buffer ++ enc ∧ ∀ pre post r, Reader.At (pre ++ (enc ++ post)) pre.length r →
      (r.call f.call).1 = some f.stripped ∧
        (r.call f.call).2.At (pre ++ (enc ++ post)) (pre.length + enc.length) := by
  cases f with
  | u8 v =>
      cases h
      refine ⟨[v], rfl, fun pre post r hr => ?_⟩
      obtain ⟨hval, hat⟩ := (readU8_takes hr.safe).at hr rfl
      refine ⟨?_, hat⟩
      simp [Value.call, Reader.call, Value.stripped, hval, hr.buffer, hr.position]
  | u16 v =>
      cases h
      refine ⟨encode16 v, writeU16_buffer w v, fun pre post r hr => ?_⟩
      obtain ⟨hval, hat⟩ := (readU16_takes hr.safe).at hr rfl
      refine ⟨?_, hat⟩
      simp only [Value.call, Reader.call, Value.stripped, hval, hr.buffer, hr.position, word16_encode16, Option.map_some]
  | u32 v =>
      cases h
      refine ⟨encode32 v, writeU32_buffer w v, fun pre post r hr => ?_⟩
      obtain ⟨hval, hat⟩ := (readU32_takes hr.safe).at hr rfl
      refine ⟨?_, hat⟩
      simp only [Value.call, Reader.call, Value.stripped, hval, hr.buffer, hr.position, word32_encode32, Option.map_some]
  | bytes data =>
      cases h
      refine ⟨data, rfl, fun pre post r hr => ?_⟩
      obtain ⟨hval, hat⟩ := (readBytes_takes hr.safe data.length).at hr rfl
      refine ⟨?_, hat⟩
      simp [Value.call, Reader.call, Value.stripped, hval, hr.buffer, hr.position]
  | name name =>
      obtain ⟨hok, h⟩ := Option.ite_none_right_eq_some.mp h
      obtain ⟨labels, hlabels⟩ := writeName_sound hok
      rw [writeName_complete w hlabels] at h
      cases h
      refine ⟨encodeLabels labels ++ [0], List.append_assoc _ _ _, fun pre post r hr => ?_⟩
      have hname : NameAt r.buffer r.position labels (pre.length + (encodeLabels labels).length + 1) := by
        rw [hr.buffer, hr.position, List.append_assoc]
        exact nameAt_encodeLabels hlabels.good pre post
      have hval : (r.readName).1 = some (joinLabels labels) := (readName_iff r _).mpr ⟨labels, _, hname, rfl⟩
      obtain ⟨hsafe, hbuf⟩ := readName_safe hr.safe
      refine ⟨?_, hsafe, hbuf.trans hr.buffer, ?_⟩
      · simp only [Value.call, Reader.call, Value.stripped, hval, hlabels.stripDot, Option.map_some]
      · refine (readName_position hname).trans ?_
        simp only [List.length_append, List.length_singleton]
        omega

/-- Induction over the fields, with what is written before them and behind them. -/
theorem putAll_callAll {fields : List Value} {w w' : Writer} (h : w.putAll fields = some w') :
    ∃ enc, w'.buffer = w.buffer ++ enc ∧ ∀ pre post r, Reader.At (pre ++ (enc ++ post)) pre.length r →
      (r.callAll (fields.map Value.call)).1 = fields.map (some ·.stripped) ∧
        (r.callAll (fields.map Value.call)).2.At (pre ++ (enc ++ post)) (pre.length + enc.length) := by
  induction fields generalizing w with
  | nil =>
      cases h
      exact ⟨[], (List.append_nil _).symm, fun pre post r hr => ⟨rfl, hr⟩⟩
  | cons f fields ih =>
      obtain ⟨w₁, hput, hrest⟩ := Option.bind_eq_some_iff.mp h
      obtain ⟨enc, henc, hcall⟩ := put_call hput
      obtain ⟨encs, hencs, hcalls⟩ := ih hrest
      refine ⟨enc ++ encs, by rw [hencs, henc, List.append_assoc], fun pre post r hr => ?_⟩
      have hassoc : pre ++ (enc ++ encs ++ post) = pre ++ (enc ++ (encs ++ post)) := by simp only [List.append_assoc]
      rw [hassoc] at hr ⊢
      obtain ⟨hval, hat⟩ := hcall pre (encs ++ post) r hr
      rw [← List.append_assoc pre enc, ← List.length_append] at hat
      obtain ⟨hvals, hend⟩ := hcalls (pre ++ enc) post _ hat
      refine ⟨?_, ?_⟩
      · simp only [List.map_cons, Reader.callAll, hval, hvals]
      · rw [List.append_assoc pre enc] at hend
        simpa only [List.map_cons, Reader.callAll, List.length_append, Nat.add_assoc] using hend

theorem stripDot_eq_iff (name : Bytes) : stripDot name = name ↔ name.getLast? ≠ some dot := by
  unfold stripDot
  split
  · next hlast =>
      refine ⟨fun heq => ?_, fun hne => (hne hlast).elim⟩
      have hlen := congrArg List.length heq
      rw [List.length_dropLast] at hlen
      have hnil : name = [] := List.eq_nil_of_length_eq_zero (by omega)
      simp [hnil] at hlast
  · next hlast => exact ⟨fun _ => hlast, fun _ => rfl⟩

theorem stripped_eq_iff (f : Value) : f.stripped = f ↔ ∀ name, f = .name name → name.getLast? ≠ some dot := by
  cases f with
  | name name => simp [Value.stripped, stripDot_eq_iff]
  | u8 | u16 | u32 | bytes => simp [Value.stripped]

/-- Reading the fields that were written, in order, ends at the end of the buffer; it
returns exactly the written values if and only if no written name ends in '.'. -/
theorem fields_read_back {fields : List Value} {w : Writer} (h : ({} : Writer).putAll fields = some w) :
    (Reader.callAll { buffer := w.buffer } (fields.map Value.call)).2.atEnd = true ∧
    ((Reader.callAll { buffer := w.buffer } (fields.map Value.call)).1 = fields.map some ↔
      ∀ name, .name name ∈ fields → name.getLast? ≠ some dot) := by
  obtain ⟨enc, henc, hcall⟩ := putAll_callAll h
  rw [List.nil_append] at henc
  have hstart : Reader.At ([] ++ (enc ++ [])) ([] : Bytes).length { buffer := w.buffer } :=
    ⟨.of_buffer _, by simp [henc], rfl⟩
  obtain ⟨hvals, hend⟩ := hcall [] [] _ hstart
  refine ⟨?_, ?_⟩
  · simp [Reader.atEnd, hend.buffer, hend.position]
  · rw [hvals, List.map_inj_left]
    refine ⟨fun heq name hname => ?_, fun hlast f hf => ?_⟩
    · exact (stripped_eq_iff _).mp (Option.some.inj (heq _ hname)) name rfl
    · refine congrArg some ((stripped_eq_iff f).mpr fun name hname => hlast name ?_)
      exact hname ▸ hf

theorem mixedFields_read_back :
    ∃ w, ({} : Writer).putAll [.u8 1, .name [97, dot, 98], .u32 7, .bytes [9, 9], .u16 515, .name []] = some w ∧
      (Reader.callAll { buffer := w.buffer } [.readU8, .readName, .readU32, .readBytes 2, .readU16, .readName]).1 =
        [some (.u8 1), some (.name [97, dot, 98]), some (.u32 7), some (.bytes [9, 9]), some (.u16 515), some (.name [])] ∧
      (Reader.callAll { buffer := w.buffer }
        [.readU8, .readName, .readU32, .readBytes 2, .readU16, .readName]).2.atEnd = true := by
  obtain ⟨w, hw⟩ := Option.isSome_iff_exists.mp (show (({} : Writer).putAll
    [.u8 1, .name [97, dot, 98], .u32 7, .bytes [9, 9], .u16 515, .name []]).isSome = true by decide +kernel)
  obtain ⟨hend, hvals⟩ := fields_read_back hw
  exact ⟨w, hw, hvals.mpr (by simp [dot]), hend⟩

/-- The name "a." is accepted and read back as "a". -/
theorem finalDot_lost :
    ∃ w, ({} : Writer).putAll [.name [97, dot]] = some w ∧
      (Reader.callAll { buffer := w.buffer } [.readName]).1 = [some (.name [97])] := by
  have hbytes : (({} : Writer).putAll [.name [97, dot]]).map (·.buffer) = some [1, 97, 0] := by decide +kernel
  obtain ⟨w, hw, hbuf⟩ := Option.map_eq_some_iff.mp hbytes
  exact ⟨w, hw, by rw [hbuf]; decide +kernel⟩

end CxNetworking.Dns
