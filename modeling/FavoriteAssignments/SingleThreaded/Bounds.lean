import FavoriteAssignments.SingleThreaded.Responses

/-! # Stores while a request is read

Where `read_request_line`, `sscanf` in it and `get_content_length` write. `%s` and the loop of
`get_content_length` have no bound, so this depends on what the client sends. -/

namespace FavoriteAssignments.SingleThreaded

open CStrings

/-! ## Arrays -/

/-- The arrays of `read_request_line`, `main` and `get_content_length`. -/
inductive Target where
  | buffer
  | method
  | filename
  | version
  | headerField
  deriving DecidableEq, Repr

def Target.size : Target → ℕ
  | .buffer => BUFFER_SIZE
  | .method => 10
  | .filename => PATH_MAX
  | .version => 10
  | .headerField => BUFFER_SIZE

/-- A character stored into an array. -/
structure Store where
  target : Target
  index : ℕ
  deriving DecidableEq, Repr

def Store.Inside (s : Store) : Prop := s.index < s.target.size

/-! ## The request line -/

/-- The stores of the loop of `read_request_line` behind `line`. A byte that is read goes to
the end of the line, and a newline there is replaced by a NUL. -/
def requestStores (stale line : List Char) : List Read → List Store
  | [] => if stale[line.length]? = some '\n' then [⟨.buffer, line.length⟩] else []
  | .interrupted :: reads => requestStores stale line reads
  | .failed :: _ => []
  | .byte c :: reads =>
      ⟨.buffer, line.length⟩ ::
        if c = '\n' then [⟨.buffer, line.length⟩]
        else
          let line := line ++ [c]
          if line.length < BUFFER_SIZE - 1 then requestStores stale line reads else []

/-- The characters of a word and the NUL behind it. -/
def wordStores (target : Target) (word : List Char) : List Store :=
  (List.range (word.length + 1)).map fun index => ⟨target, index⟩

/-- The stores of `sscanf(buffer, "%s %s %s", method, filename, version)`. -/
def scanStores (buffer : List Char) : List Store :=
  (List.zipWith wordStores [.method, .filename, .version] (words 3 buffer)).flatten

/-- All stores of `read_request_line`. -/
def lineStores (client_socket : ℕ) (stale : List Char) (reads : List Read) : List Store :=
  requestStores stale [] reads ++
    match (requestLoop client_socket stale [] reads).2.1 with
    | none => []
    | some buffer => scanStores buffer

theorem inside_buffer {line : List Char} (hroom : line.length < BUFFER_SIZE - 1) :
    Store.Inside ⟨.buffer, line.length⟩ :=
  Nat.lt_of_lt_pred hroom

/-- The loop itself stays in its buffer. -/
theorem requestStores_inside {stale line : List Char} (reads : List Read)
    (hroom : line.length < BUFFER_SIZE - 1) :
    ∀ s ∈ requestStores stale line reads, s.Inside := by
  induction reads generalizing line with
  | nil =>
      rw [requestStores]
      split
      · simpa using inside_buffer hroom
      · exact List.forall_mem_nil _
  | cons read reads ih =>
      cases read with
      | interrupted => exact ih hroom
      | failed => exact List.forall_mem_nil _
      | byte c =>
          rw [requestStores, List.forall_mem_cons]
          refine ⟨inside_buffer hroom, ?_⟩
          split
          · simpa using inside_buffer hroom
          · dsimp only
            split
            · next hmore => exact ih hmore
            · exact List.forall_mem_nil _

theorem wordStores_inside_iff {target : Target} {word : List Char} :
    (∀ s ∈ wordStores target word, s.Inside) ↔ word.length < target.size := by
  simp only [wordStores, List.forall_mem_map, List.mem_range, Store.Inside]
  constructor
  · exact fun h => h word.length word.length.lt_succ_self
  · intro h index hindex
    omega

/-- The scan stays in its arrays exactly if the words fit. -/
theorem scanStores_inside_iff {buffer : List Char} :
    (∀ s ∈ scanStores buffer, s.Inside) ↔ fits (words 3 buffer) = true := by
  simp only [scanStores]
  generalize words 3 buffer = ws
  rcases ws with _ | ⟨method, _ | ⟨filename, _ | ⟨version, ws⟩⟩⟩ <;>
    simp [fits, wordStores_inside_iff, Target.size, or_imp, forall_and]

theorem lineStores_inside_iff (client_socket : ℕ) {stale : List Char} {reads : List Read} :
    (∀ s ∈ lineStores client_socket stale reads, s.Inside) ↔
      ∀ text, RequestText stale (delivered reads) text → fits (words 3 text) = true := by
  have hloop : ∀ s ∈ requestStores stale [] reads, s.Inside :=
    requestStores_inside reads (by decide)
  simp only [lineStores, List.forall_mem_append, requestText_iff client_socket]
  cases (requestLoop client_socket stale [] reads).2.1 with
  | none => simpa using hloop
  | some buffer => simpa [scanStores_inside_iff] using fun _ => hloop

/-- `read_request_line` returns true for a string of three words. -/
theorem read_request_line_true_iff (spill : List (List Char) → Locals → Locals)
    (stale : List Char) (reads : List Read) (locals : Locals) :
    (read_request_line spill stale reads locals).2.1 = true ↔
      ∃ text, RequestText stale (delivered reads) text ∧ (words 3 text).length = 3 := by
  simp only [requestText_iff locals.client_socket]
  unfold read_request_line
  rcases requestLoop locals.client_socket stale [] reads with ⟨events, buffer, rest⟩
  cases buffer with
  | none => simp
  | some buffer => simp [scan]

/-! ## The header -/

/-- The values of `headerIter` from the end of `headerField` on. -/
def headerIters (headerField : List Char) : List Read → List ℕ
  | .byte c :: reads =>
      headerField.length ::
        let headerField := headerField ++ [c]
        if ['\r', '\n', '\r', '\n'].isSuffixOf headerField then [headerField.length]
        else headerIters headerField reads
  | _ => [headerField.length]

/-- The NUL that ends the value of `Content-Length`. -/
def valueStores (headerField : List Char) : List Store :=
  let searchHeader := "Content-Length:".toList
  match strstr searchHeader (cString headerField) with
  | none => []
  | some headerStart =>
      match strstr ['\r', '\n'] (headerStart.drop searchHeader.length) with
      | none => []
      | some headerEnd => [⟨.headerField, (cString headerField).length - headerEnd.length⟩]

/-- All stores of `get_content_length` from the end of `headerField` on. -/
def headerStores (headerField : List Char) : List Read → List Store
  | .byte c :: reads =>
      ⟨.headerField, headerField.length⟩ ::
        let headerField := headerField ++ [c]
        if ['\r', '\n', '\r', '\n'].isSuffixOf headerField then
          ⟨.headerField, headerField.length⟩ :: valueStores headerField
        else headerStores headerField reads
  | _ => []

theorem valueStores_inside {headerField : List Char} (h : headerField.length < BUFFER_SIZE) :
    ∀ s ∈ valueStores headerField, s.Inside := by
  have hle := cString_length_le headerField
  rw [valueStores]
  split
  · exact List.forall_mem_nil _
  · split
    · exact List.forall_mem_nil _
    · rw [List.forall_mem_singleton]
      exact ((Nat.sub_le _ _).trans hle).trans_lt h

/-- The stores stay in the array where `headerIter` does. -/
theorem headerStores_inside {headerField : List Char} {reads : List Read}
    (h : ∀ i ∈ headerIters headerField reads, i < BUFFER_SIZE) :
    ∀ s ∈ headerStores headerField reads, s.Inside := by
  induction reads generalizing headerField with
  | nil => exact List.forall_mem_nil _
  | cons read reads ih =>
      cases read with
      | interrupted => exact List.forall_mem_nil _
      | failed => exact List.forall_mem_nil _
      | byte c =>
          rw [headerIters, List.forall_mem_cons] at h
          rw [headerStores, List.forall_mem_cons]
          refine ⟨h.1, ?_⟩
          have hrest := h.2
          dsimp only at hrest ⊢
          split at hrest
          · next hend =>
              rw [if_pos hend, List.forall_mem_cons]
              rw [List.forall_mem_singleton] at hrest
              exact ⟨hrest, valueStores_inside hrest⟩
          · next hend =>
              rw [if_neg hend]
              exact ih hrest

/-- The model of `get_content_length` gives up at the first store outside of the array. -/
theorem headerLoop_overflow_iff (client_socket : ℕ) {headerField : List Char} {reads : List Read} :
    (headerLoop client_socket headerField reads).2 = .overflow ↔
      ∃ s ∈ headerStores headerField reads, ¬ s.Inside := by
  fun_induction headerLoop client_socket headerField reads with
  | case1 headerField c reads hfull =>
      refine iff_of_true rfl ⟨⟨.headerField, headerField.length⟩, ?_, not_lt.mpr hfull⟩
      rw [headerStores]
      exact List.mem_cons_self
  | case2 headerField c reads hroom line hend =>
      have hfirst : Store.Inside ⟨.headerField, headerField.length⟩ := not_le.mp hroom
      rw [headerStores]
      dsimp only
      rw [if_pos hend]
      by_cases hlen : line.length < BUFFER_SIZE
      · have hall : ∀ s ∈ (⟨.headerField, headerField.length⟩ : Store) ::
            ⟨.headerField, line.length⟩ :: valueStores line, s.Inside := by
          rw [List.forall_mem_cons, List.forall_mem_cons]
          exact ⟨hfirst, hlen, valueStores_inside hlen⟩
        rw [if_pos hlen]
        refine iff_of_false (by simp) ?_
        rintro ⟨s, hs, hout⟩
        exact hout (hall s hs)
      · rw [if_neg hlen]
        refine iff_of_true rfl ⟨⟨.headerField, line.length⟩, ?_, hlen⟩
        exact List.mem_cons_of_mem _ List.mem_cons_self
  | case3 headerField c reads hroom line hend events header hloop ih =>
      have hfirst : Store.Inside ⟨.headerField, headerField.length⟩ := not_le.mp hroom
      rw [hloop] at ih
      rw [headerStores]
      dsimp only
      rw [if_neg hend, List.exists_mem_cons_iff]
      simpa [hfirst] using ih
  | case4 reads headerField hother =>
      have hnone : headerStores headerField reads = [] := by
        rcases reads with _ | ⟨c | _ | _, reads⟩
        · rfl
        · exact (hother c reads rfl).elim
        · rfl
        · rfl
      simp [hnone]

theorem not_infix_take {needle front rest : List Char} {n : ℕ} (h : ¬needle <:+: front)
    (hle : n ≤ front.length) : ¬needle <:+: (front ++ rest).take n := by
  rw [List.take_append_of_le_length hle]
  exact fun hneedle => h (hneedle.trans (List.take_prefix _ _).isInfix)

/-- `headerIter` stays below a bound if so many bytes are not sent, or if the end of the header
is among the first of them. -/
theorem headerIters_lt_iff {size : ℕ} {headerField : List Char} {reads : List Read}
    (h : ¬['\r', '\n', '\r', '\n'] <:+: headerField) :
    (∀ i ∈ headerIters headerField reads, i < size) ↔
      (headerField ++ clientBytes reads).length < size ∨
        ['\r', '\n', '\r', '\n'] <:+: (headerField ++ clientBytes reads).take (size - 1) := by
  have hstop : ∀ front, ¬['\r', '\n', '\r', '\n'] <:+: front →
      (front.length < size ↔ front.length < size ∨
        ['\r', '\n', '\r', '\n'] <:+: front.take (size - 1)) := fun front hfront =>
    (or_iff_left fun hend => hfront (hend.trans (List.take_prefix _ _).isInfix)).symm
  induction reads generalizing headerField with
  | nil => simpa [headerIters, clientBytes] using hstop headerField h
  | cons read reads ih =>
      cases read with
      | interrupted => simpa [headerIters, clientBytes] using hstop headerField h
      | failed => simpa [headerIters, clientBytes] using hstop headerField h
      | byte c =>
          have hlonger : headerField ++ c :: clientBytes reads =
              headerField ++ [c] ++ clientBytes reads := by simp
          have hlen : (headerField ++ [c]).length = headerField.length + 1 := by simp
          -- behind the bound there is no end of the header up to this byte
          have hroom : ((headerField ++ [c] ++ clientBytes reads).length < size ∨
              ['\r', '\n', '\r', '\n'] <:+:
                (headerField ++ [c] ++ clientBytes reads).take (size - 1)) →
              headerField.length + 1 < size := by
            rintro (hlt | hend)
            · rw [List.length_append, hlen] at hlt
              omega
            · by_contra hfull
              rw [← hlonger] at hend
              exact not_infix_take h (by omega) hend
          rw [headerIters, List.forall_mem_cons, clientBytes, hlonger]
          dsimp only
          split
          · next hend =>
              rw [List.forall_mem_singleton, hlen]
              refine ⟨fun hlt => .inr ?_, fun hsafe => ?_⟩
              · have hprefix : headerField ++ [c] <+:
                    (headerField ++ [c] ++ clientBytes reads).take (size - 1) := by
                  rw [List.prefix_take_iff, hlen]
                  exact ⟨List.prefix_append _ _, by omega⟩
                rw [List.isSuffixOf_iff_suffix] at hend
                exact hend.isInfix.trans hprefix.isInfix
              · have hlt := hroom hsafe
                exact ⟨by omega, hlt⟩
          · next hend =>
              have hstill : ¬['\r', '\n', '\r', '\n'] <:+: headerField ++ [c] := by
                rw [List.infix_concat_iff, ← List.isSuffixOf_iff_suffix]
                exact not_or.mpr ⟨hend, h⟩
              refine (and_congr_right' (ih hstill)).trans ?_
              refine and_iff_right_of_imp fun hsafe => ?_
              have hlt := hroom hsafe
              omega

/-! ## Both functions -/

/-- Every store is inside of its array, `headerIter` stays below `BUFFER_SIZE`, and
`read_request_line` returns true only for a line whose newline is in the buffer. -/
structure ParserBounds (client_socket : ℕ) (stale : List Char) (reads headers : List Read) :
    Prop where
  line : ∀ s ∈ lineStores client_socket stale reads, s.Inside
  header : ∀ s ∈ headerStores [] headers, s.Inside
  headerIter : ∀ i ∈ headerIters [] headers, i < BUFFER_SIZE
  newline : ∀ spill locals, (read_request_line spill stale reads locals).2.1 = true →
    ∃ (line : List Char) (rest : List Read), '\n' ∉ line ∧ line.length < BUFFER_SIZE - 1 ∧
      delivered reads = line.map .byte ++ .byte '\n' :: rest

/-- The words of a line fit, and there are not three of them where no newline is received. A
header ends within the array, or is given up by the client before it is full. -/
structure FittingInput (stale : List Char) (reads headers : List Read) : Prop where
  newline : ∀ (line : List Char) rest, delivered reads = line.map .byte ++ .byte '\n' :: rest → '\n' ∉ line →
    line.length < BUFFER_SIZE - 1 → fits (words 3 (cString line)) = true
  closed : ∀ (line : List Char), delivered reads = line.map .byte → '\n' ∉ line →
    line.length < BUFFER_SIZE - 1 → stale[line.length]? = some '\n' →
    fits (words 3 (cString line)) = true ∧ (words 3 (cString line)).length ≠ 3
  full : ∀ (line : List Char) rest, delivered reads = line.map .byte ++ rest → '\n' ∉ line →
    line.length = BUFFER_SIZE - 1 →
    fits (words 3 (cString (line ++ stale.drop line.length))) = true ∧
      (words 3 (cString (line ++ stale.drop line.length))).length ≠ 3
  header : (clientBytes headers).length < BUFFER_SIZE ∨
    ['\r', '\n', '\r', '\n'] <:+: (clientBytes headers).take (BUFFER_SIZE - 1)

/-- A newline cannot be received in front of the end of a line without one. -/
theorem no_earlier_newline {line line' : List Char} {rest rest' : List Read}
    (h : line.map Read.byte ++ rest = line'.map .byte ++ .byte '\n' :: rest')
    (hline : '\n' ∉ line) : line.length ≤ line'.length := by
  by_contra hlt
  have hget := congrArg (fun reads => reads[line'.length]?) h
  rw [List.getElem?_append_left (by simpa using hlt), List.getElem?_map,
    List.getElem?_append_right (by simp)] at hget
  simp only [List.length_map, Nat.sub_self, List.getElem?_cons_zero, Option.map_eq_some_iff] at hget
  obtain ⟨c, hc, hbyte⟩ := hget
  obtain rfl : c = '\n' := Read.byte.inj hbyte
  exact hline (List.mem_of_getElem? hc)

/-- The words that are too long, the line without a newline and the header without an end are
all that breaks the bounds. -/
theorem parserBounds_iff (client_socket : ℕ) (stale : List Char) (reads headers : List Read) :
    ParserBounds client_socket stale reads headers ↔ FittingInput stale reads headers := by
  have hheader : (∀ i ∈ headerIters [] headers, i < BUFFER_SIZE) ↔ _ :=
    headerIters_lt_iff (by decide)
  constructor
  · intro h
    have hfits := (lineStores_inside_iff client_socket).mp h.line
    have hthree : ∀ text, RequestText stale (delivered reads) text →
        (words 3 text).length = 3 → ∃ (line : List Char) (rest : List Read), '\n' ∉ line ∧
          line.length < BUFFER_SIZE - 1 ∧ delivered reads = line.map .byte ++ .byte '\n' :: rest :=
      fun text htext hcount => h.newline (fun _ locals => locals) ⟨0, [], [], []⟩
        ((read_request_line_true_iff _ _ _ _).mpr ⟨text, htext, hcount⟩)
    constructor
    · intro line rest hreads hline hroom
      exact hfits _ (hreads ▸ .newline rest hline hroom)
    · intro line hreads hline hroom hstale
      have htext : RequestText stale (delivered reads) (cString line) :=
        hreads ▸ .closed hline hroom hstale
      refine ⟨hfits _ htext, fun hcount => ?_⟩
      obtain ⟨line', rest, -, -, hreads'⟩ := hthree _ htext hcount
      have hsame : line.map Read.byte ++ [] = line'.map .byte ++ .byte '\n' :: rest := by
        rw [List.append_nil, ← hreads, hreads']
      have hle := no_earlier_newline hsame hline
      have hlen := congrArg List.length hsame
      simp only [List.length_map, List.length_append, List.length_cons, List.length_nil] at hlen
      omega
    · intro line rest hreads hline hlen
      have htext : RequestText stale (delivered reads) (cString (line ++ stale.drop line.length)) :=
        hreads ▸ .full rest hline hlen
      refine ⟨hfits _ htext, fun hcount => ?_⟩
      obtain ⟨line', rest', -, hroom, hreads'⟩ := hthree _ htext hcount
      have hle := no_earlier_newline (hreads.symm.trans hreads') hline
      omega
    · exact hheader.mp h.headerIter
  · intro h
    have hiters := hheader.mpr h.header
    refine ⟨?_, headerStores_inside hiters, hiters, ?_⟩
    · rw [lineStores_inside_iff]
      intro text htext
      generalize hreads : delivered reads = received at htext
      cases htext with
      | newline rest hline hroom => exact h.newline _ rest hreads hline hroom
      | closed hline hroom hstale => exact (h.closed _ hreads hline hroom hstale).1
      | full rest hline hlen => exact (h.full _ rest hreads hline hlen).1
    · intro spill locals htrue
      obtain ⟨text, htext, hcount⟩ := (read_request_line_true_iff _ _ _ _).mp htrue
      generalize hreads : delivered reads = received at htext
      cases htext with
      | newline rest hline hroom => exact ⟨_, rest, hline, hroom, rfl⟩
      | closed hline hroom hstale =>
          exact ((h.closed _ hreads hline hroom hstale).2 hcount).elim
      | full rest hline hlen => exact ((h.full _ rest hreads hline hlen).2 hcount).elim

/-- The NUL behind a method of ten characters is stored behind `method`. -/
theorem long_method_stored_outside :
    ¬ ∀ client_socket stale reads headers, ParserBounds client_socket stale reads headers := by
  intro h
  have hstores := (h 4 [] ("AAAAAAAAAA / HTTP/1.1\r\n".toList.map .byte) []).line
  have hmem : (⟨.method, 10⟩ : Store) ∈
      lineStores 4 [] ("AAAAAAAAAA / HTTP/1.1\r\n".toList.map .byte) := by decide
  exact lt_irrefl 10 (hstores _ hmem)

end FavoriteAssignments.SingleThreaded
