import BoardPython.Main
import BoardPython.Proofs.InitFunction
import BoardPython.Proofs.RoundTrip
import BoardPython.Proofs.LeftFiles
import BoardPython.Proofs.LocalNames
import BoardPython.Proofs.ConfinedStores
import BoardPython.Proofs.DefinitionOrder
import BoardPython.Proofs.ExpressionTyping
import BoardPython.Proofs.SymbolTables
import BoardPython.Proofs.FaultlessUnits
import BoardPython.Proofs.TokenSpans
import BoardPython.Proofs.CarriageReturns
import BoardPython.Proofs.LineLayout
import BoardPython.Proofs.ComposedParsing
import BoardPython.Proofs.ComparisonCounts
import BoardPython.Proofs.NumberLiterals
import BoardPython.Proofs.OverloadSelection
import BoardPython.Proofs.SupportedVersions
import BoardPython.Proofs.WatchedChanges
