import FavoriteAssignments.SingleThreaded.Responses

/-! # The grammar of request lines

Which lines `main` hands to the handlers, against the language that its checks aim at. -/

namespace FavoriteAssignments.SingleThreaded

/-- `METHOD SP NAME SP VERSION`, for a method. -/
inductive RequestLine (method : List Char) : List Char → Prop where
  | intro {name version : List Char} : name ≠ [] →
      (∀ c ∈ name, c.isAlphanum = true ∨ c = '.' ∨ c = '-') →
      ("HTTP/1.0".toList <+: version ∨ "HTTP/1.1".toList <+: version) →
      RequestLine method (method ++ ' ' :: (name ++ ' ' :: version))

/-- A request line is handed to the handler of its method if it is well-formed, and gets an
error response if it is not. -/
structure Serves (files : Files) (stale line : List Char) (reads : List Read) (locals : Locals)
    (spill : List (List Char) → Locals → Locals) : Prop where
  get : (∃ filename, handed spill stale reads locals = .get filename) ↔
    RequestLine ['G', 'E', 'T'] line
  put : (∃ filename, handed spill stale reads locals = .put filename) ↔
    RequestLine ['P', 'U', 'T'] line
  error : ¬RequestLine ['G', 'E', 'T'] line → ¬RequestLine ['P', 'U', 'T'] line →
    ∃ status_code, 400 ≤ status_code ∧ iteration spill files stale reads locals =
      (read_request_line spill stale reads locals).1 ++
        send_response locals.client_socket status_code

/-- No line reaches a handler, so the grammar is kept on the lines outside of it, as far as
their words fit. -/
theorem serves_iff (files : Files) (stale line : List Char) (reads rest : List Read)
    (locals : Locals)
    (hreads : delivered reads = line.map .byte ++ .byte '\n' :: rest) :
    (∀ spill, Serves files stale line reads locals spill) ↔
      (¬RequestLine ['G', 'E', 'T'] line ∧ ¬RequestLine ['P', 'U', 'T'] line) ∧
        ∀ text, RequestText stale (line.map .byte ++ .byte '\n' :: rest) text →
          fits (words 3 text) = true := by
  rw [← hreads]
  have hnever : ∀ spill, (∀ filename, handed spill stale reads locals ≠ .get filename) ∧
      ∀ filename, handed spill stale reads locals ≠ .put filename := by
    intro spill
    rcases handed_answered spill stale reads locals with hanswered | hanswered <;>
      simp [hanswered]
  constructor
  · intro h
    have hget : ¬RequestLine ['G', 'E', 'T'] line := by
      intro hline
      obtain ⟨filename, hfile⟩ := (h fun _ locals => locals).get.mpr hline
      exact (hnever fun _ locals => locals).1 filename hfile
    have hput : ¬RequestLine ['P', 'U', 'T'] line := by
      intro hline
      obtain ⟨filename, hfile⟩ := (h fun _ locals => locals).put.mpr hline
      exact (hnever fun _ locals => locals).2 filename hfile
    refine ⟨⟨hget, hput⟩, fun text htext => ?_⟩
    by_contra hfits
    -- a word that overwrites `client_socket` sends the response elsewhere
    let spill (_ : List (List Char)) (locals : Locals) : Locals :=
      { locals with client_socket := locals.client_socket + 1 }
    obtain ⟨status_code, -, hresponse⟩ := (h spill).error hget hput
    obtain ⟨status_code', -, heq⟩ := iteration_eq spill files stale reads locals
    rw [heq, read_request_line_spills spill locals htext hfits, List.append_cancel_left_eq] at hresponse
    have hsocket := congrArg List.head? hresponse
    simp [send_response, spill] at hsocket
  · rintro ⟨⟨hget, hput⟩, hfits⟩ spill
    obtain ⟨status_code, hstatus, heq⟩ := iteration_eq spill files stale reads locals
    rw [read_request_line_client_socket spill locals hfits] at heq
    refine ⟨iff_of_false ?_ hget, iff_of_false ?_ hput, fun _ _ => ⟨status_code, by omega, heq⟩⟩
    · rintro ⟨filename, hfile⟩
      exact (hnever spill).1 filename hfile
    · rintro ⟨filename, hfile⟩
      exact (hnever spill).2 filename hfile

theorem RequestLine.head? {method line : List Char} (h : RequestLine method line) (hne : method ≠ []) :
    line.head? = method.head? := by
  cases h with
  | intro _ _ _ => rw [List.head?_append_of_ne_nil _ hne]

/-- A line that is no request of either kind gets its 400. -/
theorem serves_iff_head :
    Serves Files.empty [] "HEAD a HTTP/1.1".toList
      ("HEAD a HTTP/1.1\n".toList.map .byte) ⟨4, [], [], []⟩ (fun _ locals => locals) := by
  refine (serves_iff Files.empty [] "HEAD a HTTP/1.1".toList _ [] ⟨4, [], [], []⟩
    rfl).mpr ⟨⟨fun h => ?_, fun h => ?_⟩, fun text htext => ?_⟩ _
  · exact absurd (h.head? (by decide)) (by decide)
  · exact absurd (h.head? (by decide)) (by decide)
  · have hscanned := htext.execution 4
    have htext' : (requestLoop 4 [] [] ("HEAD a HTTP/1.1".toList.map .byte ++ .byte '\n' :: [])).2.1 =
        some "HEAD a HTTP/1.1".toList := by decide +kernel
    obtain rfl := Option.some.inj (hscanned.symm.trans htext')
    decide +kernel

/-- A well-formed GET gets a 400. -/
theorem get_line_not_served :
    RequestLine ['G', 'E', 'T'] "GET foo.txt HTTP/1.1\r".toList ∧
      ¬Serves Files.empty [] "GET foo.txt HTTP/1.1\r".toList
        ("GET foo.txt HTTP/1.1\r\n".toList.map .byte) ⟨4, [], [], []⟩ (fun _ locals => locals) := by
  have hline : RequestLine ['G', 'E', 'T'] "GET foo.txt HTTP/1.1\r".toList :=
    @RequestLine.intro _ "foo.txt".toList "HTTP/1.1\r".toList (by simp) (by simp)
      (Or.inr ⟨['\r'], rfl⟩)
  refine ⟨hline, fun h => ?_⟩
  obtain ⟨filename, hfile⟩ := h.get.mpr hline
  have hanswered : handed (fun _ locals => locals) [] ("GET foo.txt HTTP/1.1\r\n".toList.map .byte)
      ⟨4, [], [], []⟩ = .answered 400 := by decide +kernel
  rw [hanswered] at hfile
  cases hfile

end FavoriteAssignments.SingleThreaded
