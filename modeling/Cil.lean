import Cil.Basic
import Cil.ClassPerms
import Cil.ClassPermsGraph
import Cil.Expr
import Cil.ExprMeaning
import Cil.Flavor
import Cil.Library.Bitmap
import Cil.Library.Call
import Cil.Library.Chain
import Cil.Library.Descent
import Cil.Library.Equations
import Cil.Library.ListOrder
import Cil.Post.Attributes
import Cil.Post.AttributesCyclic
import Cil.Post.AttributesSound
import Cil.Resolve.Alias
import Cil.Resolve.AliasChains
import Cil.Resolve.AliasSoundness
import Cil.Resolve.OrderedLists
import Cil.Resolve.OrderedListsPermutation
import Cil.Resolve.OrderedListsSoundness
import Cil.Tree
import Cil.Verify.ClasspermsLoop
import Cil.Verify.ClasspermsLoopExact
import Cil.Post.Numbering
import Cil.Post.NumberingFaithful
import Cil.ClassPermsExpansion
import Cil.Library.WordBitmap
import Cil.Binary.Neverallow
import Cil.Binary.NeverallowSound
import Cil.Binary.TypeRules
import Cil.Binary.TypeRulesConflicts
import Cil.Resolve.Passes
import Cil.Resolve.PassesTermination
import Cil.Resolve.OrderCheck
import Cil.Resolve.OrderCheckExact
import Cil.Copy.DeclarationKinds
import Cil.Resolve.Names
import Cil.Copy.Levels
import Cil.Resolve.MacroScope
import Cil.Resolve.MacroArgs
import Cil.Resolve.MacroArgsFaithful
import Cil.Ast.Nodes
import Cil.Resolve.Walk
import Cil.Resolve.Optionals
import Cil.Library.Commuting
import Cil.Resolve.InOrder
import Cil.Resolve.InOrderExact
import Cil.Resolve.Steps
import Cil.Resolve.Dangling
import Cil.Copy.Parts
import Cil.Copy.Statements
import Cil.Copy.Faithful
import Cil.Ast.Symtabs
import Cil.Ast.Symtabs.Agreement
import Cil.ExprValues
import Cil.Resolve.Permissions
import Cil.Post.Classperms
import Cil.Resolve.PermissionNumbers
import Cil.Post.ClasspermsDenotation
import Cil.Build.Expr
import Cil.Library.LinkedList
import Cil.Library.Postfix
import Cil.CondExpr
import Cil.Binary.Postfix
import Cil.Binary.StackNeed
import Cil.ClassPermsGains
import Cil.Binary.AvruleTable
import Cil.Binary.AvruleUnion
import Cil.Build.Conditional
import Cil.Conditional.Statements
import Cil.Conditional.Booleanif
import Cil.Verify.Levels
import Cil.Verify.Context
import Cil.Verify.ContextExact
import Cil.Build.SetExpr
import Cil.ExprLeaves
import Cil.Post.Categories
import Cil.Post.SetExpressions
import Cil.Post.CategoriesExact
import Cil.Post.CategoryPass
import Cil.Post.UserLevels
import Cil.Build.Constraint
import Cil.Binary.Constraint
import Cil.Binary.ConstraintStack
import Cil.Binary.ConstraintTruth
import Cil.Resolve.LastPass
import Cil.Resolve.Used
import Cil.Binary.TypeAttrMap
import Cil.Binary.TypeAttrMapExact
import Cil.Binary.TypeAttrMapConverse
import Cil.Verify.LevelsExact
import Cil.Verify.Bounds
import Cil.Library.Separated
import Cil.Name
import Cil.Write.Level
import Cil.Write.LevelMeaning
import Cil.Write.Outputs
import Cil.Write.OutputsExact
import Cil.Library.LongestMatch
import Cil.Parser.Lexer
import Cil.Post.PathScan
import Cil.Library.Nesting
import Cil.Parser.Parser
import Cil.Parser.Layout
import Cil.Parser.ParserExact
import Cil.Verify.Syntax
import Cil.Library.Comparator
import Cil.Post.Comparators
import Cil.Post.ComparatorsExact
import Cil.Build.Integer
import Cil.Library.Strtok
import Cil.Resolve.DottedNames
import Cil.Resolve.DottedNamesExact
import Cil.Library.Sweep
import Cil.Fqn.Qualify
import Cil.Fqn.QualifyExact
import Cil.Build.Statements
import Cil.Build.Placement
import Cil.Build.PlacementExact
import Cil.Build.ParseHeap
import Cil.Write.Multimap
import Cil.Library.Consecutive
import Cil.Binary.Genfs
import Cil.Binary.ValArrays
import Cil.Binary.ValArraysExact
import Cil.Library.PointerTable
import Cil.Binary.Transitions
import Cil.Binary.TransitionsExact
import Cil.Verify.Statements
import Cil.Build.AstWalkExact
import Cil.Build.FrontEnd
import Cil.TreeWalk
import Cil.Library.Appended
import Cil.Library.Sorting
import Cil.Post.ContextArrays
import Cil.Binary.Contexts
import Cil.Binary.ContextLookup
import Cil.Binary.MlsRanges
import Cil.Binary.OrderedSymbols
import Cil.Binary.ClassPermissions
import Cil.Binary.Defaults
import Cil.Binary.ContextValidity
import Cil.Library.WriteOnce
import Cil.Binary.ConditionalsEnforced
import Cil.Binary.ConstraintsEnforced
import Cil.CilListRefines
