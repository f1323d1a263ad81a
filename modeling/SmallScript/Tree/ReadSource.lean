import SmallScript.Token.Scan
import SmallScript.Tree.ReadStatement

namespace SmallScript.Tree

namespace Reader

/-- At most `n` parameters, a comma after each but the last. A comma may also stand before the
parenthesis. -/
def parameters : (n : Nat) → Reader (List Parameter)
  | 0 => return []
  | n + 1 => do
    match ← kind with
    | .mark .closeParenthesis | .endOfFile => return []
    | _ =>
      let identifier ← take .identifier
      let clause ← typeClause
      if (← kind) = .mark .comma then
        let _ ← advance
        return ⟨identifier, clause⟩ :: (← parameters n)
      else return [⟨identifier, clause⟩]

def function : Reader Function := do
  let keyword ← advance
  let identifier ← take .identifier
  let opening ← take (.mark .openParenthesis)
  let params ← parameters ((← get).left + 1)
  let closing ← take (.mark .closeParenthesis)
  let clause ← typeClause?
  let body ← block
  return ⟨keyword, identifier, opening, params, closing, clause, body⟩

def member : Reader Member := do
  if (← kind) = .word .functionHead then return .function (← function)
  else return .statement (← wholeStatement)

/-- At most `n` members. A token that no member takes is skipped. -/
def members : (n : Nat) → Reader (List Member)
  | 0 => return []
  | n + 1 => do
    if (← kind) = .endOfFile then return []
    else
      let before := (← get).left
      let first ← member
      progress before
      return first :: (← members n)

def source : Reader Source := do
  let all ← members (← get).left
  let finish ← take .endOfFile
  return ⟨all, finish⟩

end Reader

/-- The cursor at the first of some tokens. Where there is none, it is at the end of an empty
text. -/
def Cursor.ofTokens : List Token → Cursor
  | [] => ⟨⟨.endOfFile, 0, "", none, false⟩, [], []⟩
  | t :: rest => ⟨t, rest, []⟩

/-- The tree of some tokens, and what is wrong with their order. Bad tokens are left out. -/
def Source.ofTokens (tokens : List Token) : Source × List Report :=
  let (s, c) := Reader.source.run (.ofTokens (tokens.filter (·.kind != .bad)))
  (s, c.reports.reverse)

theorem Source.ofTokens_eq (tokens : List Token) :
    Source.ofTokens tokens =
      ((Reader.source (.ofTokens (tokens.filter (·.kind != .bad)))).1,
        (Reader.source (.ofTokens (tokens.filter (·.kind != .bad)))).2.reports.reverse) := by
  rw [ofTokens, StateT.run]
  cases Reader.source (.ofTokens (tokens.filter (·.kind != .bad)))
  rfl

end Tree

/-- A text, its tree, and what is wrong with its tokens and then with their order. -/
structure Tree where
  text : String
  lines : LineMap
  source : Tree.Source
  reports : List Report

namespace Tree

def ofText (text : String) : Tree :=
  let scanned := scan text
  let (source, reports) := Source.ofTokens (scanned.map (·.token))
  ⟨text, .ofText text, source, scanned.filterMap (·.report) ++ reports⟩

theorem source_ofText (text : String) :
    (ofText text).source = (Source.ofTokens ((scan text).map (·.token))).1 := by
  simp only [ofText]

theorem reports_ofText (text : String) :
    (ofText text).reports =
      (scan text).filterMap (·.report) ++ (Source.ofTokens ((scan text).map (·.token))).2 := by
  simp only [ofText]

/-- The counts that stand for a tree in dumps. -/
def summary (t : Tree) : String :=
  s!"SyntaxTree \x7b members: {t.source.members.length}, diagnostics: {t.reports.length} \x7d"

def finish (t : Tree) : Position := t.lines.position t.text.utf8ByteSize

end Tree

end SmallScript
