import TableParsing.Artifact.Codec
import TableParsing.Table.Basic

/-!
# The payload of an artifact

Every part of a grammar table as bytes: alternatives as their number and content, records as their
components in order.
-/
namespace TableParsing.Payload

open Codec

def symbol : Codec Symbol := uint16.map Symbol.id Symbol.mk

def fieldId : Codec FieldId := uint16.map FieldId.id FieldId.mk

/-- The number of an alternative. -/
def variant : Codec Nat := varint 4

def symbolKind : Codec SymbolKind :=
  variant.partialMap
    (fun
      | .terminal => 0
      | .nonTerminal => 1)
    (fun
      | 0 => some .terminal
      | 1 => some .nonTerminal
      | _ => none)

def symbolMetadata : Codec SymbolMetadata :=
  (string.pair (symbolKind.pair (bool.pair (bool.pair bool)))).map
    (fun m => (m.name, m.kind, m.visible, m.named, m.extra))
    (fun (name, kind, visible, named, extra) => ⟨name, kind, visible, named, extra⟩)

def production : Codec Production :=
  (symbol.pair (uint16.pair (uint16.pair fieldId).list)).map
    (fun p => (p.lhs, p.childCount, p.fields))
    (fun (lhs, childCount, fields) => ⟨lhs, childCount, fields⟩)

def action : Codec Action where
  encode
    | .shift next => variant.encode 0 ++ uint16.encode next
    | .reduce p => variant.encode 1 ++ uint16.encode p
    | .accept => variant.encode 2
  decode input :=
    match variant.decode input with
    | some (0, rest) => (uint16.decode rest).map fun (next, rest) => (.shift next, rest)
    | some (1, rest) => (uint16.decode rest).map fun (p, rest) => (.reduce p, rest)
    | some (2, rest) => some (.accept, rest)
    | _ => none

def parseState : Codec ParseState :=
  ((symbol.pair action).array.pair (symbol.pair uint16).array).map
    (fun st => (st.actions, st.gotos))
    (fun (actions, gotos) => ⟨actions, gotos⟩)

def byteRange : Codec ByteRange :=
  (byte.pair byte).map (fun r => (r.lo, r.hi)) (fun (lo, hi) => ⟨lo, hi⟩)

def lexState : Codec LexState :=
  (symbol.option.pair (byteRange.pair uint16).list).map
    (fun st => (st.accept, st.transitions))
    (fun (accept, transitions) => ⟨accept, transitions⟩)

def table : Codec GrammarTable :=
  (string.pair (uint32.pair (symbolMetadata.array.pair (string.array.pair (production.array.pair
    (parseState.array.pair (lexState.array.pair (byteRange.list.pair (symbol.option.pair
      ((string.pair symbol).list.pair symbol.list)))))))))).map
    (fun t => (t.name, t.version, t.symbols, t.fields, t.productions, t.states, t.lexStates,
      t.separators, t.wordToken, t.keywords, t.externalTokens))
    (fun (name, version, symbols, fields, productions, states, lexStates, separators, wordToken,
      keywords, externalTokens) =>
      ⟨name, version, symbols, fields, productions, states, lexStates, separators, wordToken,
        keywords, externalTokens⟩)

end TableParsing.Payload
